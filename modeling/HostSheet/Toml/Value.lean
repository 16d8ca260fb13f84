import HostSheet.Text.Quoted
import HostSheet.Decimal.Binary64

set_option autoImplicit false

/-!
# Values of a TOML document

A table keeps its entries in the order in which they came, and also how it came about,
since that decides what may still be added to it.
-/

namespace HostSheet.Toml

/-- How a table came about. -/
inductive Origin where
  /-- By a header of its own; the document itself is such a table. -/
  | header
  /-- By the header of a table inside it. -/
  | implied
  /-- By a dotted key. -/
  | dotted
  /-- By braces. -/
  | inline
  deriving DecidableEq, Repr

/-- The size of a floating point number. -/
inductive Magnitude where
  | finite (x : Decimal.Binary64)
  | infinite
  | notANumber
  deriving DecidableEq, Repr

/-- A value. -/
inductive Value where
  | string (s : Text)
  | integer (n : Int)
  | float (negative : Bool) (x : Magnitude)
  | boolean (b : Bool)
  /-- A date, a time of day or both, as written. -/
  | date (raw : Text)
  | array (items : List Value)
  /-- The tables of headers in double brackets. -/
  | tables (items : List Value)
  | table (origin : Origin) (entries : List (Text × Value))
  deriving Repr

/-- Keys and values, in order. -/
abbrev Entries := List (Text × Value)

/-- The only key of a date, where a date is looked at as a table. -/
def dateKey : Text := "$__toml_private_datetime".toList

namespace Value

/-- The entries of a value that can be looked at as a table. -/
def entries? : Value → Option Entries
  | table _ entries => some entries
  | date raw => some [(dateKey, string raw)]
  | _ => none

/-- The items of a value that can be looked at as a list. -/
def items? : Value → Option (List Value)
  | array items => some items
  | tables items => some items
  | _ => none

/-- Whether a value is a list or a table that holds nothing. -/
def isVacant : Value → Bool
  | array [] | tables [] | table _ [] => true
  | _ => false

/-- The text of a floating point number. -/
def floatText (negative : Bool) : Magnitude → Text
  | .finite x => (if negative then ['-'] else []) ++ x.text
  | .infinite => (if negative then ['-'] else []) ++ ['i', 'n', 'f']
  | .notANumber => ['N', 'a', 'N']

/-- A text between backticks. -/
def ticked (s : Text) : Text := '\x60' :: s ++ ['\x60']

/-- What a value is, as told to somebody who expected another. -/
def describe : Value → Text
  | string s => "string ".toList ++ Text.quote s
  | integer n => "integer ".toList ++ ticked (toString n).toList
  | float negative x => "floating point ".toList ++ ticked (floatText negative x)
  | boolean b => "boolean ".toList ++ ticked (if b then "true".toList else "false".toList)
  | array _ | tables _ => "sequence".toList
  | date _ | table _ _ => "map".toList

end Value

end HostSheet.Toml
