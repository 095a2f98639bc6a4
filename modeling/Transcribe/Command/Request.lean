/-
  Transcribe.Command.Request — what the command line asks for.

  Options stand anywhere among the paths, with their value attached or behind them, each at
  most once; `--` ends them. An argument is first told apart by itself (`argument`): a value, an
  option with or without its value, a call for help, or unknown. Then the arguments are taken
  one by one into what is `Given`, and from that and the name of the command the request is
  made, if nothing is missing or empty.
-/

import Transcribe.Target.Profile

namespace Transcribe.Command

open Target (Language)

inductive Request where
  /-- Writes the files of all sources into a directory. -/
  | save (paths : List String) (target : Language) (out : String) (profile? : Option String)
  /-- Prints the files of one source. -/
  | print (path : String) (target : Language) (profile? : Option String)
  /-- Only reports what cannot be written. -/
  | check (paths : List String) (target : Language) (profile? : Option String)
  /-- Prints the syntax tree of a source. -/
  | tree (path : String)
  /-- Prints the profile of a target. -/
  | profile (target : Language)
  | version
  | help
  /-- The command line is wrong. -/
  | misuse
  deriving Repr, DecidableEq

namespace Request

inductive Flag where
  | target | out | profile
  deriving Repr, DecidableEq

def Flag.long : Flag → String
  | .target => "target"
  | .out => "out"
  | .profile => "profile"

def Flag.short? : Flag → Option Char
  | .target => some 't'
  | .out => some 'o'
  | .profile => none

inductive Argument where
  | value (text : String)
  | flag (f : Flag)
  | flagWith (f : Flag) (text : String)
  | help
  | unknown

/-- An argument that starts with two dashes, without them. -/
def longArgument (flags : List Flag) (cs : List Char) : Argument :=
  let name := String.ofList (cs.takeWhile (· != '='))
  match flags.find? (·.long == name), cs.dropWhile (· != '=') with
  | some f, [] => .flag f
  | some f, _ :: text => .flagWith f (String.ofList text)
  | none, rest => if name == "help" && rest.isEmpty then .help else .unknown

/-- An argument that starts with one dash, without it. -/
def shortArgument (flags : List Flag) (c : Char) (cs : List Char) : Argument :=
  match flags.find? (·.short? == some c), cs with
  | some f, [] => .flag f
  | some f, '=' :: text => .flagWith f (String.ofList text)
  | some f, text => .flagWith f (String.ofList text)
  | none, _ => if c == 'h' then .help else .unknown

def argument (flags : List Flag) (text : String) : Argument :=
  match text.toList with
  | '-' :: '-' :: cs => longArgument flags cs
  | '-' :: c :: cs => shortArgument flags c cs
  | _ => .value text

def isValue (text : String) : Bool :=
  match text.toList with
  | '-' :: _ :: _ => false
  | _ => true

structure Given where
  options : List (Flag × String)
  values : List String

namespace Given

def get? (g : Given) (f : Flag) : Option String := g.options.lookup f

def addValue (text : String) (g : Given) : Given := { g with values := text :: g.values }

/-- Whether no option is repeated and nothing is empty. -/
def isProper (g : Given) : Bool :=
  decide (g.options.map (·.1)).Nodup && g.options.all (·.2 != "") && g.values.all (· != "")

end Given

inductive Ended where
  | help | misuse

/-- Takes arguments one by one; `pending?` is an option that waits for its value. -/
def collect (flags : List Flag) : Option Flag → Given → List String → Except Ended Given
  | none, g, [] => .ok ⟨g.options.reverse, g.values.reverse⟩
  | some _, _, [] => .error .misuse
  | some f, g, text :: rest =>
    if isValue text then collect flags none { g with options := (f, text) :: g.options } rest
    else .error .misuse
  | none, g, text :: rest =>
    if text == "--" then .ok ⟨g.options.reverse, g.values.reverse ++ rest⟩
    else
      match argument flags text with
      | .value v => collect flags none (g.addValue v) rest
      | .flag f => collect flags (some f) g rest
      | .flagWith f v => collect flags none { g with options := (f, v) :: g.options } rest
      | .help => .error .help
      | .unknown => .error .misuse

def Given.target? (g : Given) : Option Language := (g.get? .target).bind Language.ofWord?

def ofGiven? (command : String) (g : Given) : Option Request :=
  match command, g.values with
  | "translate", path :: paths => do
    return .save (path :: paths) (← g.target?) (← g.get? .out) (g.get? .profile)
  | "check", path :: paths => do return .check (path :: paths) (← g.target?) (g.get? .profile)
  | "show", [path] => do return .print path (← g.target?) (g.get? .profile)
  | "ast", [path] => some (.tree path)
  | "profile", [] => g.target?.map .profile
  | _, _ => none

def flagsOf? : String → Option (List Flag)
  | "translate" => some [.target, .out, .profile]
  | "check" => some [.target, .profile]
  | "show" => some [.target, .profile]
  | "ast" => some []
  | "profile" => some [.target]
  | _ => none

def ofArguments : List String → Request
  | [] => .misuse
  | command :: arguments =>
    if command == "--version" || command == "-V" then .version
    else if command == "--help" || command == "-h" || command == "help" then .help
    else
      match flagsOf? command with
      | none => .misuse
      | some flags =>
        match collect flags none ⟨[], []⟩ arguments with
        | .error .help => .help
        | .error .misuse => .misuse
        | .ok g => if g.isProper then (ofGiven? command g).getD .misuse else .misuse

end Request

end Transcribe.Command
