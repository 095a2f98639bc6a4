/-
  Transcribe.Command.Path — names of files, with slashes between their components.
-/

namespace Transcribe.Command.Path

def pieces : List Char → List (List Char)
  | [] => [[]]
  | c :: cs =>
    if c == '/' then [] :: pieces cs
    else
      match pieces cs with
      | piece :: more => (c :: piece) :: more
      | [] => [[c]]

def split (path : String) : List String := (pieces path.toList).map String.ofList

def isAbsolute (path : String) : Bool := path.toList.head? == some '/'

def join (directory name : String) : String :=
  match directory.toList.getLast? with
  | none => name
  | some c => if c == '/' then directory ++ name else directory ++ "/" ++ name

/-- Components that say where a file is; empty ones and `.` do not. -/
def components (path : String) : List String := (split path).filter fun c => c != "" && c != "."

/-- What stands behind the last dot of a file's name, unless that dot is its first character. -/
def extension? (path : String) : Option String :=
  match (components path).getLast? with
  | none => none
  | some name =>
    let back := name.toList.reverse
    match back.dropWhile (· != '.') with
    | _ :: _ :: _ =>
      if name == ".." then none
      else some (String.ofList (back.takeWhile (· != '.')).reverse)
    | _ => none

/-- The order of paths: component by component. -/
def le (a b : String) : Bool :=
  !(components b).lex (components a) fun x y => decide (x < y)

end Transcribe.Command.Path
