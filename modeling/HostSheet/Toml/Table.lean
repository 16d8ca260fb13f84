import HostSheet.Toml.Value

set_option autoImplicit false

/-!
# Adding to tables

A document and a table in braces are both built entry by entry.  A key may be given once.
A dotted key makes the tables on its way, and only such tables, or those a header has
implied, can be entered by a dotted key again; a table in braces is complete once closed.
-/

namespace HostSheet.Toml

namespace Entries

/-- The value of a key. -/
def get? (key : Text) (es : Entries) : Option Value := es.lookup key

/-- Another value for a key, at its place. -/
def replace (key : Text) (v : Value) (es : Entries) : Entries :=
  es.map fun e => if e.1 = key then (key, v) else e

/-- A new key behind all others. -/
def add (key : Text) (v : Value) (es : Entries) : Entries := es ++ [(key, v)]

/-- The entries without a key. -/
def without (key : Text) (es : Entries) : Entries := es.filter (·.1 ≠ key)

/-- A change of a table, given how the table came about. -/
abbrev Change := Origin → Entries → Option Entries

/-- Change the table that the keys lead to.  Tables that are missing on the way are made,
and of tables under double brackets the last is entered.  Nothing else can be entered,
a table in braces neither; and a dotted key enters no table with a header of its own. -/
def within (dotted : Bool) (change : Change) : List Text → Change
  | [], origin, es => change origin es
  | key :: keys, _, es =>
    match get? key es with
    | none => do
      let made := if dotted then Origin.dotted else Origin.implied
      return add key (.table made (← within dotted change keys made [])) es
    | some (.table origin inner) => do
      if origin = .inline ∨ (dotted ∧ origin = .header) then none
      return replace key (.table origin (← within dotted change keys origin inner)) es
    | some (.tables items) =>
      match items.getLast? with
      | some (.table origin inner) => do
        let last := Value.table origin (← within dotted change keys origin inner)
        return replace key (.tables (items.dropLast ++ [last])) es
      | _ => none
    | some _ => none

/-- Give a key its value, in the table that the keys in front of it lead to.  A table that
was not made by a dotted key takes no entry through one. -/
def assign (keys : List Text) (key : Text) (v : Value) : Change :=
  within true
    (fun origin es =>
      if origin = .dotted ↔ keys = [] then none
      else match get? key es with
        | none => some (add key v es)
        | some _ => none)
    keys

/-- Open the table of a header.  It may have been implied before, and then moves behind the
others; it may not have been given. -/
def openTable (keys : List Text) (key : Text) : Change :=
  within false
    (fun _ es =>
      match get? key es with
      | none => some (add key (.table .header []) es)
      | some (.table .implied inner) =>
        some (add key (.table .header inner) (without key es))
      | some _ => none)
    keys

/-- Open one more table of a header in double brackets. -/
def openItem (keys : List Text) (key : Text) : Change :=
  within false
    (fun _ es =>
      match get? key es with
      | none => some (add key (.tables [.table .header []]) es)
      | some (.tables items) =>
        some (replace key (.tables (items ++ [.table .header []])) es)
      | some _ => none)
    keys

end Entries

end HostSheet.Toml
