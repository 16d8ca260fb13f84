import HostSheet.Bundle.Json
import HostSheet.Command.Directory
import HostSheet.Command.Line
import HostSheet.Config

set_option autoImplicit false

/-!
# Running a command

A command settles its configuration, reads its input, rewrites it and then either prints
the result or writes it to a file.  It is an `Action`: it looks at files and changes them
one step after the other, and when a step fails, all that was done before it stays done.
Nothing is undone, so that it is the order of the steps alone that keeps a failing command
from leaving a trace.
-/

namespace HostSheet.Command

/-! ## Failures -/

/-- Why a configuration file cannot be used. -/
inductive LoadFault where
  | file (f : FileFault)
  | config (f : ConfigFault)
  deriving DecidableEq, Repr

/-- Why a command fails. -/
inductive Failure where
  | config (path : Text) (f : LoadFault)
  | options (f : OptionFault)
  | input (path : Text) (f : FileFault)
  | standardInput (f : FileFault)
  | stylesheet (path : Text) (e : ParseError)
  | output (path : Text) (f : FileFault)
  deriving DecidableEq, Repr

/-- What is said about a document that is no configuration. -/
def malformedMessage (m : Malformed) : Text :=
  "TOML parse error".toList ++
    match m.message? with
    | some message => ':' :: ' ' :: message
    | none => []

namespace LoadFault

def message : LoadFault → Text
  | file f => "Failed to read config file: ".toList ++ f.message
  | config (.malformed m) => "Failed to parse config file: ".toList ++ malformedMessage m
  | config (.options f) => f.message

/-- The fault and what caused it, the nearest first. -/
def causes (f : LoadFault) : List Text :=
  f.message ::
    match f with
    | file f => [f.message]
    | config (.malformed m) => [malformedMessage m]
    | config (.options _) => []

end LoadFault

namespace Failure

/-- What was being done. -/
def context : Failure → Text
  | config path _ => "Failed to load config: ".toList ++ path
  | options _ => "Invalid transform options".toList
  | input path _ => "Failed to read stylesheet: ".toList ++ path
  | standardInput _ => "Failed to read stylesheet from stdin".toList
  | stylesheet path _ => "Failed to transform stylesheet: ".toList ++ path
  | output path _ => "Failed to write output file: ".toList ++ path

/-- What went wrong, the nearest cause first. -/
def causes : Failure → List Text
  | config _ f => f.causes
  | options f => [f.message]
  | input _ f => [f.message]
  | standardInput f => [f.message]
  | stylesheet _ e => [transformMessage e, e.message]
  | output _ f => [f.message]

/-- The causes as lines, numbered if there are several. -/
def causeLines : List Text → Text
  | [cause] => "    ".toList ++ cause ++ ['\n']
  | causes =>
    causes.zipIdx.flatMap fun p =>
      "    ".toList ++ Nat.toDigits 10 p.2 ++ [':', ' '] ++ p.1 ++ ['\n']

/-- The report of a failure. -/
def report (f : Failure) : Text :=
  "Error: ".toList ++ f.context ++ "\n\nCaused by:\n".toList ++ causeLines f.causes

end Failure

/-! ## Actions -/

/-- What a command finds when it starts. -/
structure Surroundings where
  directory : Directory := {}
  standardInput : Content := .text []
  deriving DecidableEq, Repr

/-- What a command works on: its surroundings as they are by now, and what was printed. -/
structure World extends Surroundings where
  printed : Text := []
  deriving DecidableEq, Repr

/-- A part of a command.  It may fail, and then leaves the world as it is by then. -/
abbrev Action := EStateM Failure World

/-- Read a file. -/
def readFile (path : Text) (failure : FileFault → Failure) : Action Text := do
  ofExcept (((← get).directory.read path).mapError failure)

/-- Write a file. -/
def writeFile (path s : Text) (failure : FileFault → Failure) : Action Unit := do
  let d ← ofExcept (((← get).directory.write path s).mapError failure)
  modify fun w => { w with directory := d }

/-- Print a text. -/
def print (s : Text) : Action Unit := modify fun w => { w with printed := w.printed ++ s }

/-! ## Configuration -/

/-- The configuration file that is used, if it is there, when none is named. -/
def defaultConfigPath : Text := "hostcss.toml".toList

/-- The configuration in a file. -/
def loadConfig (path : Text) : Action Config := do
  let s ← readFile path fun f => .config path (.file f)
  ofExcept ((Config.parse s).mapError fun f => .config path (.config f))

/-- The configuration of the file that is named, else of the default file, else the one
without any settings. -/
def baseConfig (named : Option Text) : Action Config := do
  match named with
  | some path => loadConfig path
  | none =>
    if (← get).directory.exists? defaultConfigPath then loadConfig defaultConfigPath
    else return {}

namespace Overrides

/-- Options with the settings of the command line over them. -/
def apply (v : Overrides) (o : Options) : Options where
  hostTag := v.hostTag.getD o.hostTag
  layerName := v.layerName.or o.layerName
  dataAttributes := v.dataAttributes || o.dataAttributes
  excludeFromData := if v.exclude = [] then o.excludeFromData else some v.exclude

end Overrides

/-- The configuration of a command: that of a file, with the settings of the command line
over it.  Both the file's options and the final ones are checked. -/
def settle (v : Overrides) : Action Config := do
  let base ← baseConfig v.config
  let options := v.apply base.options
  ofExcept (options.check.mapError .options)
  return { base with options := options }

/-! ## Input and output -/

/-- The path that stands for the standard input. -/
def standardInputPath : Text := ['-']

/-- The stylesheet to rewrite. -/
def readInput (path : Text) : Action Text := do
  if path = standardInputPath then
    match (← get).standardInput with
    | .text s => return s
    | .bytes => throw (.standardInput .notText)
  else readFile path (.input path)

/-- Write a result to a file, or print it and a line end. -/
def deliver (output : Option Text) (s : Text) : Action Unit :=
  match output with
  | some path => writeFile path s (.output path)
  | none => print (s ++ ['\n'])

/-! ## Commands -/

/-- Rewrite a stylesheet. -/
def runTransform (input : Text) (mode : Option Mode) (v : Overrides) (output : Option Text) :
    Action Unit := do
  let config ← settle v
  let css ← readInput input
  let result ← ofExcept <|
    (HostSheet.transform (mode.getD config.mode) config.options css).mapError
      (.stylesheet input)
  deliver output result

/-- Bundle a stylesheet. -/
def runBundle (input : Text) (v : Overrides) (json : Bool) (output : Option Text) :
    Action Unit := do
  let config ← settle v
  let css ← readInput input
  let bundle := Bundle.ofText config.options css
  deliver output (if json then bundle.json else bundle.plain)

/-- Print the content name of a stylesheet. -/
def runHash (input : Text) : Action Unit := do
  let css ← readInput input
  deliver none (contentName css)

/-- The paths that a request may read from. -/
def Request.reads : Request → List Text
  | .show _ => []
  | .transform input _ v _ | .bundle input v _ _ => [v.config.getD defaultConfigPath, input]
  | .hash input => [input]

/-- The path that a request writes to, if any. -/
def Request.writes : Request → Option Text
  | .show _ | .hash _ => none
  | .transform _ _ _ output | .bundle _ _ _ output => output

/-- Do what a line asks for. -/
def Request.run : Request → Action Unit
  | .show s => print s
  | .transform input mode v output => runTransform input mode v output
  | .bundle input v json output => runBundle input v json output
  | .hash input => runHash input

/-! ## The program -/

/-- What the program leaves behind. -/
structure Outcome where
  code : Nat
  stdout : Text := []
  stderr : Text := []
  directory : Directory
  deriving DecidableEq, Repr

/-- Run the program on the words of its command line.  A line that asks for nothing
sensible ends with code 2, a command that fails with code 1. -/
def run (w : Surroundings) (words : List Text) : Outcome :=
  match ofWords words with
  | .error f => { code := 2, stderr := f.message, directory := w.directory }
  | .ok request =>
    match request.run { toSurroundings := w } with
    | .ok () after => { code := 0, stdout := after.printed, directory := after.directory }
    | .error f after =>
      { code := 1, stdout := after.printed, stderr := f.report, directory := after.directory }

end HostSheet.Command
