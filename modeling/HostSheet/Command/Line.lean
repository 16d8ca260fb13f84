import HostSheet.Command.Grammar
import HostSheet.Mode

set_option autoImplicit false

/-!
# Reading a command line

Words are read from left to right.  One that starts with a dash is an option or several
short ones in a row; a value is never taken from a word that looks like an option.  After
`--` every word is an argument.  Asking for help ends the reading where it stands, so that
only what is wrong before it counts.
-/

namespace HostSheet.Command

/-! ## What a line asks for -/

/-- The settings of a line that go over those of a configuration file. -/
structure Overrides where
  hostTag : Option Text := none
  layerName : Option Text := none
  dataAttributes : Bool := false
  exclude : List Text := []
  /-- The configuration file. -/
  config : Option Text := none
  deriving DecidableEq, Repr

/-- What a line asks for. -/
inductive Request where
  /-- To print a text that does not depend on any file. -/
  | show (s : Text)
  | transform (input : Text) (mode : Option Mode) (overrides : Overrides)
      (output : Option Text)
  | bundle (input : Text) (overrides : Overrides) (json : Bool) (output : Option Text)
  | hash (input : Text)
  deriving DecidableEq, Repr

/-- What is wrong with a line. -/
inductive UsageFault where
  | unknownCommand (word : Text)
  | unknownOption (word : Text)
  | missingValue (option : Text)
  | unwantedValue (option : Text)
  | repeated (option : Text)
  | notAChoice (value : Text)
  | extraArgument (word : Text)
  | missingArgument (name : Text)
  deriving DecidableEq, Repr

namespace UsageFault

def describe : UsageFault → Text
  | unknownCommand word => "unrecognized subcommand ".toList ++ word
  | unknownOption word => "unexpected option ".toList ++ word
  | missingValue option => "a value is required for --".toList ++ option
  | unwantedValue option => "no value is wanted for --".toList ++ option
  | repeated option => "--".toList ++ option ++ " cannot be used multiple times".toList
  | notAChoice value => "invalid value ".toList ++ value
  | extraArgument word => "unexpected argument ".toList ++ word
  | missingArgument name => "required argument ".toList ++ name ++ " was not provided".toList

def message (f : UsageFault) : Text :=
  "error: ".toList ++ f.describe ++ "\n\nFor more information, try '--help'.\n".toList

end UsageFault

/-! ## The words of one command -/

/-- What was read of a command's words. -/
structure Given where
  /-- The options given, in order, those without a value with an empty one. -/
  options : List (Text × Text) := []
  argument : Option Text := none
  /-- The option whose value comes next. -/
  pending : Option OptionSpec := none
  /-- Whether `--` was read. -/
  ended : Bool := false
  deriving Repr

/-- A word was read, or help was asked for. -/
inductive Progress where
  | more (g : Given)
  | helpWanted
  deriving Repr

namespace Given

/-- The value of an option, if it was given. -/
def value? (g : Given) (o : OptionSpec) : Option Text := g.options.lookup o.long

/-- All values of an option, in order. -/
def values (g : Given) (o : OptionSpec) : List Text :=
  (g.options.filter fun p => p.1 == o.long).map Prod.snd

def has (g : Given) (o : OptionSpec) : Bool := (g.value? o).isSome

/-- Take an option with its value. -/
def take (g : Given) (o : OptionSpec) (value : Text) : Except UsageFault Given :=
  if g.has o && !o.repeatable then .error (.repeated o.long)
  else if o.choices ≠ [] ∧ !o.choices.contains value then .error (.notAChoice value)
  else .ok { g with options := g.options ++ [(o.long, value)], pending := none }

/-- Take an argument. -/
def takeArgument (g : Given) (s : Spec) (word : Text) : Except UsageFault Given :=
  match s.argument, g.argument with
  | some a, none =>
    if a.choices ≠ [] ∧ !a.choices.contains word then .error (.notAChoice word)
    else .ok { g with argument := some word }
  | _, _ => .error (.extraArgument word)

/-- Take the word after two dashes. -/
def takeLong (g : Given) (s : Spec) (word : Text) : Except UsageFault Progress :=
  let name := word.takeWhile (· ≠ '=')
  let value := (word.dropWhile (· ≠ '=')).tail?
  match (s.options ++ [helpOption]).find? (·.long == name), value with
  | none, _ => .error (.unknownOption word)
  | some o, some value =>
    if o.valueName.isSome then (g.take o value).map .more else .error (.unwantedValue name)
  | some o, none =>
    if o.valueName.isSome then .ok (.more { g with pending := some o })
    else if o = helpOption then .ok .helpWanted
    else (g.take o []).map .more

/-- Take the letters after one dash.  What follows the letter of an option with a value is
the value, an equals sign in between left out. -/
def takeShort (g : Given) (s : Spec) : Text → Except UsageFault Progress
  | [] => .ok (.more g)
  | c :: r =>
    match (s.options ++ [helpOption]).find? (·.short == some c) with
    | none => .error (.unknownOption [c])
    | some o =>
      if o.valueName.isSome then
        match r with
        | [] => .ok (.more { g with pending := some o })
        | '=' :: value => (g.take o value).map .more
        | value => (g.take o value).map .more
      else if o = helpOption then .ok .helpWanted
      else do takeShort (← g.take o []) s r

/-- Take one word. -/
def takeWord (g : Given) (s : Spec) (word : Text) : Except UsageFault Progress :=
  if g.ended then (g.takeArgument s word).map .more
  else
    match word, g.pending with
    | '-' :: _ :: _, some o => .error (.missingValue o.long)
    | word, some o => (g.take o word).map .more
    | ['-', '-'], none => .ok (.more { g with ended := true })
    | '-' :: '-' :: name, none => g.takeLong s name
    | '-' :: c :: letters, none => g.takeShort s (c :: letters)
    | word, none => (g.takeArgument s word).map .more

/-- Take all words of a command: what was given, or nothing if help was asked for. -/
def ofWords (s : Spec) (g : Given) : List Text → Except UsageFault (Option Given)
  | [] =>
    match g.pending, s.argument, g.argument with
    | some o, _, _ => .error (.missingValue o.long)
    | none, some a, none => .error (.missingArgument a.name)
    | none, _, _ => .ok (some g)
  | word :: words => do
    match ← g.takeWord s word with
    | .helpWanted => return none
    | .more g => ofWords s g words

/-- The settings given. -/
def overrides (g : Given) : Overrides where
  hostTag := g.value? hostTagOption
  layerName := g.value? layerOption
  dataAttributes := g.has dataOption
  exclude := g.values excludeOption
  config := g.value? configOption

/-- The mode given. -/
def mode? (g : Given) : Option Mode :=
  (g.value? modeOption).map fun name => if name = "tree".toList then .tree else .text

/-- The input given. -/
def input (g : Given) : Text := g.argument.getD []

end Given

/-! ## The whole line -/

/-- What a command with its words asks for. -/
def ofCommand (s : Spec) (words : List Text) : Except UsageFault Request := do
  match ← Given.ofWords s {} words with
  | none => return .show s.help
  | some g =>
    if s = transformSpec then
      return .transform g.input g.mode? g.overrides (g.value? outputOption)
    else if s = bundleSpec then
      return .bundle g.input g.overrides (g.has jsonOption) (g.value? outputOption)
    else if s = hashSpec then return .hash g.input
    else return .show []

/-- The command of a name. -/
def spec? (name : Text) : Option Spec := specs.find? (·.name == name)

/-- What asking for the help of a command asks for. -/
def ofHelp : List Text → Except UsageFault Request
  | [] => .ok (.show programHelp)
  | [word] =>
    match spec? word with
    | some s => .ok (.show s.help)
    | none =>
      if word = helpSpec.name then .ok (.show helpHelp) else .error (.unknownCommand word)
  | _ :: word :: _ => .error (.unknownCommand word)

/-- What a line asks for. -/
def ofWords : List Text → Except UsageFault Request
  | [] => .ok (.show greeting)
  | word :: words =>
    match spec? word with
    | some s => ofCommand s words
    | none =>
      if word = helpSpec.name then ofHelp words
      else
        match word, words with
        | ['-', '-'], [] => .ok (.show greeting)
        | ['-', '-'], word :: _ => .error (.extraArgument word)
        | '-' :: '-' :: name, _ =>
          if name = helpOption.long then .ok (.show programHelp)
          else if name = versionOption.long then .ok (.show versionLine)
          else .error (.unknownOption name)
        | '-' :: c :: _, _ =>
          if some c = helpOption.short then .ok (.show programHelp)
          else if some c = versionOption.short then .ok (.show versionLine)
          else .error (.unknownOption [c])
        | word, _ => .error (.unknownCommand word)

end HostSheet.Command
