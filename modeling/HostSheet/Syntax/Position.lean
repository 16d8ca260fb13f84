import HostSheet.Syntax.Name

set_option autoImplicit false

/-!
# Lines and columns

A fault is found at an offset, a number of characters.  People are told a line and
a column.  Lines end in a line feed, a form feed, a carriage return, or a carriage
return and a line feed together; columns count UTF-16 code units.  Both start at 1.
-/

namespace HostSheet.Syntax

/-- A line and a column, both counted from 1. -/
structure Position where
  line : Nat
  column : Nat
  deriving DecidableEq, Repr

namespace Position

/-- Where a text starts. -/
def start : Position := ⟨1, 1⟩

/-- The number of UTF-16 code units of a character. -/
def units (c : Char) : Nat := if c.toNat < 0x10000 then 1 else 2

/-- The position after a text that starts at `p`. -/
def after (p : Position) : Text → Position
  | [] => p
  | ['\r'] => ⟨p.line + 1, 1⟩
  | '\r' :: '\n' :: r => after ⟨p.line + 1, 1⟩ r
  | c :: r =>
    if isNewline c then after ⟨p.line + 1, 1⟩ r
    else after ⟨p.line, p.column + units c⟩ r

/-- The position of an offset into a text. -/
def ofOffset (s : Text) (offset : Nat) : Position := start.after (s.take offset)

end Position

end HostSheet.Syntax
