import HostSheet.Text

set_option autoImplicit false

/-!
# The words of the command line

Each command is described once: its options, its argument and what the help says about
them.  Reading a command line and writing its help both go by this description.
-/

namespace HostSheet.Command

/-- An option of a command. -/
structure OptionSpec where
  /-- The word after two dashes. -/
  long : Text
  /-- The letter after one dash. -/
  short : Option Char := none
  /-- What the help calls the value, for an option that takes one. -/
  valueName : Option Text := none
  /-- The only values allowed; all are if there are none. -/
  choices : List Text := []
  /-- Whether the option may be given more than once. -/
  repeatable : Bool := false
  help : Text
  deriving DecidableEq, Repr

/-- The argument of a command. -/
structure ArgumentSpec where
  name : Text
  choices : List Text := []
  help : Text
  deriving DecidableEq, Repr

/-- A command. -/
structure Spec where
  name : Text
  about : Text
  options : List OptionSpec := []
  argument : Option ArgumentSpec := none
  deriving DecidableEq, Repr

/-! ## Options -/

def helpOption : OptionSpec where
  long := "help".toList
  short := some 'h'
  help := "Print help".toList

def versionOption : OptionSpec where
  long := "version".toList
  short := some 'V'
  help := "Print version".toList

def modeOption : OptionSpec where
  long := "mode".toList
  short := some 'm'
  valueName := some "MODE".toList
  choices := ["text".toList, "tree".toList]
  help := "Transformer to use (default: from config, else text)".toList

def hostTagOption : OptionSpec where
  long := "host-tag".toList
  valueName := some "HOST_TAG".toList
  help := "Text substituted for :host (default: &)".toList

def layerOption : OptionSpec where
  long := "layer".toList
  short := some 'l'
  valueName := some "LAYER".toList
  help := "Wrap the output in this cascade layer".toList

def dataOption : OptionSpec where
  long := "data-attributes".toList
  short := some 'd'
  help := "Rename [attr] selectors to [data-attr]".toList

def excludeOption : OptionSpec where
  long := "exclude".toList
  short := some 'x'
  valueName := some "NAME".toList
  repeatable := true
  help := "Attribute name exempt from the data- remap (repeatable)".toList

def configOption : OptionSpec where
  long := "config".toList
  short := some 'c'
  valueName := some "CONFIG".toList
  help := "Configuration file (default: ./hostcss.toml when present)".toList

def jsonOption : OptionSpec where
  long := "json".toList
  help := "Print a JSON object with \"name\" and \"css\"".toList

def outputOption : OptionSpec where
  long := "output".toList
  short := some 'o'
  valueName := some "OUTPUT".toList
  help := "Write the result to a file instead of stdout".toList

/-- The options about how a stylesheet is rewritten. -/
def settingOptions : List OptionSpec :=
  [hostTagOption, layerOption, dataOption, excludeOption, configOption]

/-! ## Commands -/

def inputArgument : ArgumentSpec where
  name := "INPUT".toList
  help := "Input stylesheet (\"-\" for stdin)".toList

def shellArgument : ArgumentSpec where
  name := "SHELL".toList
  choices := ["bash", "elvish", "fish", "powershell", "zsh"].map String.toList
  help := "Shell to generate completions for".toList

def transformSpec : Spec where
  name := "transform".toList
  about := "Rewrite :host selectors in a stylesheet".toList
  options := modeOption :: settingOptions ++ [outputOption]
  argument := some inputArgument

def bundleSpec : Spec where
  name := "bundle".toList
  about := "Transform a stylesheet and name it by content, for CSS-in-JS".toList
  options := settingOptions ++ [jsonOption, outputOption]
  argument := some inputArgument

def hashSpec : Spec where
  name := "hash".toList
  about := "Print the content name of a stylesheet as it is".toList
  argument := some inputArgument

def completionsSpec : Spec where
  name := "completions".toList
  about := "Generate shell completions".toList
  argument := some shellArgument

def helpSpec : Spec where
  name := "help".toList
  about := "Print this message or the help of the given subcommand(s)".toList

/-- The commands that can be given. -/
def specs : List Spec := [transformSpec, bundleSpec, hashSpec, completionsSpec]

/-- The program's name, as it is called. -/
def programName : Text := "hostcss".toList

def programVersion : Text := "0.1.0".toList

def programAbout : Text := "Rewrite web-component :host stylesheets into plain CSS".toList

/-! ## Help -/

/-- Rows of two columns, the first as wide as its widest entry. -/
def rows (entries : List (Text × Text)) : Text :=
  let width := entries.foldl (fun w e => max w e.1.length) 0
  entries.flatMap fun e =>
    [' ', ' '] ++ e.1 ++ List.replicate (width - e.1.length) ' ' ++ [' ', ' '] ++ e.2 ++ ['\n']

/-- The values allowed, behind a help text. -/
def choicesNote (choices : List Text) : Text :=
  if choices = [] then []
  else " [possible values: ".toList ++ [',', ' '].intercalate choices ++ [']']

/-- A word between angle brackets. -/
def placeholder (name : Text) : Text := '<' :: name ++ ['>']

/-- How an option is given. -/
def OptionSpec.synopsis (o : OptionSpec) : Text :=
  (match o.short with
    | some c => ['-', c, ',', ' ']
    | none => [' ', ' ', ' ', ' ']) ++
  '-' :: '-' :: o.long ++
  (match o.valueName with
    | some name => ' ' :: placeholder name
    | none => [])

def OptionSpec.row (o : OptionSpec) : Text × Text :=
  (o.synopsis, o.help ++ choicesNote o.choices)

def ArgumentSpec.row (a : ArgumentSpec) : Text × Text :=
  (placeholder a.name, a.help ++ choicesNote a.choices)

/-- The help of a command. -/
def Spec.help (s : Spec) : Text :=
  s.about ++ "\n\nUsage: ".toList ++ programName ++ ' ' :: s.name ++
  (if s.options = [] then [] else " [OPTIONS]".toList) ++
  (match s.argument with
    | some a => ' ' :: placeholder a.name ++ "\n\nArguments:\n".toList ++ rows [a.row]
    | none => ['\n']) ++
  "\nOptions:\n".toList ++ rows ((s.options ++ [helpOption]).map OptionSpec.row)

/-- The commands, with what each is for. -/
def commandRows : Text := rows ((specs ++ [helpSpec]).map fun s => (s.name, s.about))

/-- The help of the program. -/
def programHelp : Text :=
  programAbout ++ "\n\nUsage: ".toList ++ programName ++ " [COMMAND]\n\nCommands:\n".toList ++
  commandRows ++ "\nOptions:\n".toList ++
  rows ([helpOption, versionOption].map OptionSpec.row)

/-- The help of the command that prints help. -/
def helpHelp : Text :=
  helpSpec.about ++ "\n\nUsage: ".toList ++ programName ++
  " help [COMMAND]\n\nCommands:\n".toList ++ commandRows

/-- What is printed when no command is given. -/
def greeting : Text :=
  programName ++ " v".toList ++ programVersion ++ "\nRun '".toList ++ programName ++
  " --help' for usage information\n".toList

def versionLine : Text := programName ++ ' ' :: programVersion ++ ['\n']

end HostSheet.Command
