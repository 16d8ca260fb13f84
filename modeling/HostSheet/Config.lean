import HostSheet.Mode
import HostSheet.Options.Check
import HostSheet.Toml.Document

set_option autoImplicit false

/-!
# Configuration

A configuration says how stylesheets are looked at and how they are rewritten.  It is read
from a TOML document in three steps: the document as a whole, then its keys in their
order, then the check of the options.  The first step that fails decides.
-/

namespace HostSheet

/-- The settings a file can make. -/
structure Config where
  mode : Mode := .text
  options : Options := {}
  deriving DecidableEq, Repr

/-- Why a document is no configuration. -/
inductive Malformed where
  /-- It is no TOML document. -/
  | document
  /-- It has a key that is not among the known ones. -/
  | unknownKey (key : Text) (known : List Text)
  /-- A word stands where one of the known ones should. -/
  | unknownWord (word : Text) (known : List Text)
  /-- The mode is given in a form that no mode has. -/
  | modeForm
  /-- A value is of another type than its key asks for. -/
  | type (found wanted : Text)
  deriving DecidableEq, Repr

namespace Malformed

/-- The choice between words, each between backticks. -/
def choice : List Text → Text
  | [] => []
  | [a] => Toml.Value.ticked a
  | [a, b] => Toml.Value.ticked a ++ " or ".toList ++ Toml.Value.ticked b
  | words =>
    "one of ".toList ++ [',', ' '].intercalate (words.map Toml.Value.ticked)

/-- What is wrong, for the faults that can be put into words of the configuration. -/
def message? : Malformed → Option Text
  | document | modeForm => none
  | unknownKey key known => some <|
    "unknown field ".toList ++ Toml.Value.ticked key ++ ", expected ".toList ++ choice known
  | unknownWord word known => some <|
    "unknown variant ".toList ++ Toml.Value.ticked word ++ ", expected ".toList ++ choice known
  | type found wanted => some <|
    "invalid type: ".toList ++ found ++ ", expected ".toList ++ wanted

end Malformed

/-- Why a text cannot be used as a configuration. -/
inductive ConfigFault where
  | malformed (m : Malformed)
  | options (f : OptionFault)
  deriving DecidableEq, Repr

/-! ## Values of the right type -/

open Toml (Value)

namespace Setting

/-- What a look at a value of another type answers. -/
def wrongType {α : Type} (v : Value) (wanted : String) : Except Malformed α :=
  .error (.type v.describe wanted.toList)

def text : Value → Except Malformed Text
  | .string s => .ok s
  | v => wrongType v "a string"

def boolean : Value → Except Malformed Bool
  | .boolean b => .ok b
  | v => wrongType v "a boolean"

def texts (v : Value) : Except Malformed (List Text) :=
  match v.items? with
  | some items => items.mapM text
  | none => wrongType v "a sequence"

end Setting

/-! ## Reading settings -/

namespace Options

/-- The keys of the options, in their order. -/
def keys : List Text :=
  ["host_tag".toList, "layer".toList, "data_attributes".toList, "exclude_from_data".toList]

/-- The options with one of them set. -/
def setKey (o : Options) (key : Text) (v : Value) : Except Malformed Options :=
  if key = "host_tag".toList then return { o with hostTag := ← Setting.text v }
  else if key = "layer".toList then return { o with layerName := some (← Setting.text v) }
  else if key = "data_attributes".toList then
    return { o with dataAttributes := ← Setting.boolean v }
  else if key = "exclude_from_data".toList then
    return { o with excludeFromData := some (← Setting.texts v) }
  else .error (.unknownKey key keys)

/-- The options of a table.  A list gives them in the order of their keys. -/
def ofValue (v : Value) : Except Malformed Options :=
  match v.entries?.or (v.items?.map keys.zip) with
  | some entries => entries.foldlM (fun o e => o.setKey e.1 e.2) {}
  | none => Setting.wrongType v "struct TransformOptions"

end Options

namespace Mode

/-- The mode of a name. -/
def ofName (name : Text) : Except Malformed Mode :=
  if name = "text".toList then .ok .text
  else if name = "tree".toList then .ok .tree
  else .error (.unknownWord name ["text".toList, "tree".toList])

/-- The mode of a value: its name, or a table with the name as its only key and nothing
under it. -/
def ofValue : Value → Except Malformed Mode
  | .string name => ofName name
  | .table _ [(name, content)] => do
    let mode ← ofName name
    if content.isVacant then return mode else throw .modeForm
  | _ => .error .modeForm

end Mode

namespace Config

/-- The keys of a configuration. -/
def keys : List Text := ["mode".toList, "transform".toList]

/-- The configuration with one of its keys set. -/
def setKey (c : Config) (key : Text) (v : Value) : Except Malformed Config :=
  if key = "mode".toList then return { c with mode := ← Mode.ofValue v }
  else if key = "transform".toList then return { c with options := ← Options.ofValue v }
  else .error (.unknownKey key keys)

/-- The configuration of a document, unchecked. -/
def ofDocument (s : Text) : Except Malformed Config :=
  match Toml.parse? s with
  | some entries => entries.foldlM (fun c e => c.setKey e.1 e.2) {}
  | none => .error .document

/-- The configuration of a document. -/
def parse (s : Text) : Except ConfigFault Config := do
  let config ← (ofDocument s).mapError .malformed
  config.options.check.mapError .options
  return config

end Config

end HostSheet
