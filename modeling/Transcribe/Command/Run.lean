/-
  Transcribe.Command.Run — doing what a request asks for.

  A run prints to its standard output, keeps notes on how it goes and ends with a code: 0 when
  all went well, 1 when something did not, 2 when the command line was wrong.

  A single source stops the run with the first problem. Of many sources each is settled by
  itself: what cannot be read, parsed or written is noted and the run goes on, and the last note
  counts the good and the bad. The files of all of them go into one directory.
  - `loadProfile`, `sourcesOf`: what a run starts from.
  - `settleEach`: the files of sources, one source after the other.
  - `Request.run`: a request on any file system.
-/

import Transcribe.Command.Disk
import Transcribe.Command.Request
import Transcribe.Java.Describe
import Transcribe.Output.Batch
import Transcribe.Target.Document

namespace Transcribe.Command

open Output (File Input Outcome)
open Target (Language Profile)

inductive Note where
  | ok (name : String) (count : Nat)
  | failed (name : String)
  | report (p : Problem)
  | summary (good bad : Nat)
  deriving Repr, DecidableEq

def Note.line : Note → String
  | .ok name count => "     ok " ++ name ++ " (" ++ toString count ++ " outputs)"
  | .failed name => " failed " ++ name
  | .report p => p.kind.code
  | .summary good bad => toString good ++ " ok, " ++ toString bad ++ " failed"

structure Run where
  code : Nat
  output : String
  notes : List Note
  deriving Repr, DecidableEq

namespace Run

def stopped (p : Problem) : Run := ⟨1, "", [.report p]⟩

def printed (text : String) : Run := ⟨0, text, []⟩

def ofResult : Except Problem String → Run
  | .ok text => printed text
  | .error p => stopped p

end Run

section

variable {m : Type → Type} [Monad m] (fs : FileSystem m)

/-- Reads the profile of a request; without a path it is the target's own. -/
def loadProfile (target : Language) : Option String → m (Except Problem Profile)
  | none => return .ok (Profile.default target)
  | some path => do
    match ← fs.read path with
    | none => return .error (.file (.readProfile path))
    | some text =>
      let profile :=
        if Path.extension? path = some "json" then Profile.ofJson target text
        else Profile.ofYaml target text
      return profile.mapError .profile

def loadSource (path : String) : m (Except Problem Input) := do
  match ← fs.read path with
  | none => return .error (.file (.read path))
  | some text => return .ok ⟨path, text⟩

/-- The sources a path stands for: all below a directory, sorted, or the path itself. -/
def sourcesAt (path : String) : m (Except Problem (List String)) := do
  if ← fs.isDirectory path then
    match ← fs.walk path with
    | none => return .error (.file (.walk path))
    | some files =>
      return .ok ((files.filter fun f => Path.extension? f == some "java").mergeSort Path.le)
  else return .ok [path]

def sourcesOf : List String → m (Except Problem (List String))
  | [] => return .ok []
  | path :: paths => do
    match ← sourcesAt fs path with
    | .error p => return .error p
    | .ok first =>
      match ← sourcesOf paths with
      | .error p => return .error p
      | .ok rest => return .ok (first ++ rest)

def saveEach (directory : String) : List File → m (Except Problem (List String))
  | [] => return .ok []
  | file :: files => do
    let path := Path.join directory file.name
    if ← fs.write path file.contents then
      match ← saveEach directory files with
      | .ok paths => return .ok (path :: paths)
      | .error p => return .error p
    else return .error (.file (.write path))

def saveFiles (directory : String) (files : List File) : m (Except Problem (List String)) := do
  if ← fs.createDirectories directory then saveEach fs directory files
  else return .error (.file (.createDirectory directory))

/-! ## All sources -/

/-- Reads sources; those that cannot be read are noted. -/
def readEach : List String → m (List Input × List Note)
  | [] => return ([], [])
  | path :: paths => do
    match ← loadSource fs path with
    | .ok input =>
      let (inputs, notes) ← readEach paths
      return (input :: inputs, notes)
    | .error p =>
      let (inputs, notes) ← readEach paths
      return (inputs, .failed path :: .report p :: notes)

def settle (out? : Option String) (o : Outcome) : m (Except Problem Nat) := do
  match o.result, out? with
  | .error p, _ => return .error p
  | .ok files, none => return .ok files.length
  | .ok files, some directory =>
    match ← saveFiles fs directory files with
    | .ok paths => return .ok paths.length
    | .error p => return .error p

def settleEach (out? : Option String) : List Outcome → m (List Note)
  | [] => return []
  | o :: os => do
    match ← settle fs out? o with
    | .ok count => return .ok o.name count :: (← settleEach out? os)
    | .error p => return .failed o.name :: .report p :: (← settleEach out? os)

def Note.isOk : Note → Bool
  | .ok _ _ => true
  | _ => false

def Note.isFailed : Note → Bool
  | .failed _ => true
  | _ => false

def Run.ofNotes (notes : List Note) : Run :=
  let bad := notes.countP Note.isFailed
  ⟨if bad = 0 then 0 else 1, "", notes ++ [.summary (notes.countP Note.isOk) bad]⟩

def runAll (paths : List String) (target : Language) (out? profile? : Option String) : m Run := do
  match ← loadProfile fs target profile? with
  | .error p => return .stopped p
  | .ok profile =>
    match ← sourcesOf fs paths with
    | .error p => return .stopped p
    | .ok sources =>
      let (inputs, unread) ← readEach fs sources
      let settled ← settleEach fs out? (Output.batch profile inputs)
      return .ofNotes (unread ++ settled)

/-! ## One source -/

/-- Files one after the other; with more than one, each below its name. -/
def printFiles (files : List File) : String :=
  String.join (files.map fun f =>
    (if files.length > 1 then "// ---- " ++ f.name ++ " ----\n" else "") ++ f.contents)

def runPrint (path : String) (target : Language) (profile? : Option String) : m Run := do
  match ← loadProfile fs target profile? with
  | .error p => return .stopped p
  | .ok profile =>
    match ← loadSource fs path with
    | .error p => return .stopped p
    | .ok input => return .ofResult ((Output.transcribe profile input).map printFiles)

def treeText (i : Input) : Except Problem String :=
  match Java.parse i.name i.text with
  | .error f => .error (.parsing f)
  | .ok parsed => .ok ((Java.Describe.unit parsed.unit).pretty 0 ++ "\n")

def runTree (path : String) : m Run := do
  match ← loadSource fs path with
  | .error p => return .stopped p
  | .ok input => return .ofResult (treeText input)

def saveSource (path : String) (target : Language) (out : String) (profile? : Option String) :
    m (Except Problem (List String)) := do
  match ← loadProfile fs target profile? with
  | .error p => return .error p
  | .ok profile =>
    match ← loadSource fs path with
    | .error p => return .error p
    | .ok input =>
      match Output.transcribe profile input with
      | .error p => return .error p
      | .ok files => saveFiles fs out files

/-! ## Requests -/

def versionText : String := "crosswalk 0.1.0\n"

def helpText : String :=
  "Usage: crosswalk <COMMAND>\n\nCommands:\n"
    ++ "  translate <PATHS>... --target <TARGET> --out <OUT> [--profile <PROFILE>]\n"
    ++ "  show <FILE> --target <TARGET> [--profile <PROFILE>]\n"
    ++ "  check <PATHS>... --target <TARGET> [--profile <PROFILE>]\n"
    ++ "  ast <FILE>\n"
    ++ "  profile --target <TARGET>\n"

def Request.run : Request → m Run
  | .save paths target out profile? => runAll fs paths target (some out) profile?
  | .check paths target profile? => runAll fs paths target none profile?
  | .print path target profile? => runPrint fs path target profile?
  | .tree path => runTree fs path
  | .profile target => return .printed (Profile.default target).toYaml
  | .version => return .printed versionText
  | .help => return .printed helpText
  | .misuse => return ⟨2, "", []⟩

end

end Transcribe.Command
