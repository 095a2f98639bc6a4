/-
  Transcribe.Command.Disk — the files a command works on.

  Commands are written against a `FileSystem`, which says what can be done with files and
  which calls fail. A `Disk` is a file system in memory: files and directories by the
  components of their paths, with every directory above an entry in place.
  - `Disk.fileSystem`: the calls on a disk.
-/

import Transcribe.Command.Path

namespace Transcribe.Command

/-- The calls of a file system. A call that can fail says whether it did. -/
structure FileSystem (m : Type → Type) where
  /-- The text of a file, unless it cannot be read or is no text. -/
  read : String → m (Option String)
  isDirectory : String → m Bool
  /-- The files at any depth below a directory. -/
  walk : String → m (Option (List String))
  /-- Makes a directory and all above it. -/
  createDirectories : String → m Bool
  write : String → String → m Bool

inductive Entry where
  /-- A file; one that is no text has none. -/
  | file (text? : Option String)
  | directory
  deriving Repr, DecidableEq

structure Disk where
  entries : List (List String × Entry)
  deriving Repr, DecidableEq

namespace Disk

/-- What there is under a list of components. The root and all that has something below it
are directories. -/
def lookup? (d : Disk) (p : List String) : Option Entry :=
  match d.entries.lookup p with
  | some e => some e
  | none => if p.isEmpty || d.entries.any (fun e => p.isPrefixOf e.1) then some .directory else none

def put (d : Disk) (p : List String) (e : Entry) : Disk :=
  ⟨(p, e) :: d.entries.filter (·.1 != p)⟩

/-- One component further; only a directory has anything below it. -/
def descend? (d : Disk) (p : List String) (component : String) : Option (List String) :=
  if d.lookup? p = some .directory then
    if component == "" || component == "." then some p
    else if component == ".." then if p.isEmpty then none else some p.dropLast
    else some (p ++ [component])
  else none

def resolve? (d : Disk) (path : String) : Option (List String) :=
  if path == "" || Path.isAbsolute path then none
  else (Path.split path).foldlM d.descend? []

def read (d : Disk) (path : String) : Option String :=
  match (d.resolve? path).bind d.lookup? with
  | some (.file text?) => text?
  | _ => none

def isDirectory (d : Disk) (path : String) : Bool :=
  (d.resolve? path).bind d.lookup? == some .directory

/-- The files below a directory, each as the directory's path with the way to it behind. -/
def walk (d : Disk) (path : String) : List String :=
  match d.resolve? path with
  | none => []
  | some p => d.entries.filterMap fun e =>
    match e.2 with
    | .file _ =>
      if p.isPrefixOf e.1 && e.1.length != p.length then
        some ((e.1.drop p.length).foldl Path.join path)
      else none
    | .directory => none

def createNext? (at? : Disk × List String) (component : String) : Option (Disk × List String) :=
  match at?.1.descend? at?.2 component with
  | none => none
  | some p =>
    match at?.1.lookup? p with
    | some .directory => some (at?.1, p)
    | some (.file _) => none
    | none => some (at?.1.put p .directory, p)

def createDirectories (d : Disk) (path : String) : Option Disk :=
  if path == "" then some d
  else if Path.isAbsolute path then none
  else ((Path.split path).foldlM createNext? (d, [])).map (·.1)

def write (d : Disk) (path text : String) : Option Disk :=
  match d.resolve? path with
  | none => none
  | some p => if d.lookup? p = some .directory then none else some (d.put p (.file (some text)))

def change (f : Disk → Option Disk) : StateM Disk Bool := fun d =>
  match f d with
  | some d' => (true, d')
  | none => (false, d)

def fileSystem : FileSystem (StateM Disk) where
  read path := return (← get).read path
  isDirectory path := return (← get).isDirectory path
  walk path := return some ((← get).walk path)
  createDirectories path := change (·.createDirectories path)
  write path text := change (·.write path text)

def files (d : Disk) : List (String × String) :=
  (d.entries.filterMap fun e =>
    match e.2 with
    | .file text? => text?.map ("/".intercalate e.1, ·)
    | .directory => none).mergeSort fun a b => decide (a.1 ≤ b.1)

end Disk

end Transcribe.Command
