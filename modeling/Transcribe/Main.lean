/-
  Transcribe.Main — the command line.
-/

import Transcribe.Command.Run

namespace Transcribe.Command

def pathOf (path : String) := (IO.FS.DirEntry.mk path "").root

def attempt {α : Type} (call : IO α) : IO (Option α) := do
  try return some (← call)
  catch _ => return none

def systemFiles : FileSystem IO where
  read path := return (← attempt (IO.FS.readBinFile (pathOf path))).bind String.fromUTF8?
  isDirectory path := (pathOf path).isDir
  walk path := attempt do
    let below ← (pathOf path).walkDir
    let files ← below.filterM fun f => return !(← f.isDir)
    return files.toList.map (·.toString)
  createDirectories path :=
    return path == "" || (← attempt (IO.FS.createDirAll (pathOf path))).isSome
  write path text := return (← attempt (IO.FS.writeFile (pathOf path) text)).isSome

def tell (n : Note) : IO Unit := do
  IO.eprintln n.line
  match n with
  | .report p =>
    IO.eprintln ("  " ++ p.text)
    match p.help? with
    | some help => IO.eprintln help
    | none => return ()
  | _ => return ()

end Transcribe.Command

def main (arguments : List String) : IO UInt32 := do
  let run ← (Transcribe.Command.Request.ofArguments arguments).run Transcribe.Command.systemFiles
  IO.print run.output
  run.notes.forM Transcribe.Command.tell
  if run.code == 2 then IO.eprint Transcribe.Command.helpText
  return UInt32.ofNat run.code
