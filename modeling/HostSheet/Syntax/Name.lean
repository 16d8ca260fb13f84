import HostSheet.Syntax.Reading

set_option autoImplicit false

/-!
# Names and escapes

A name is a run of letters, digits, `-`, `_`, characters beyond ASCII, NUL, and
escapes.  An escape is a backslash with either one character or up to six
hexadecimal digits, and the digits take one blank after them along.  Names,
strings and addresses share the escapes, so these are a machine of their own.
-/

namespace HostSheet.Syntax

/-! ## Character classes -/

/-- The characters that separate tokens.  Fewer than the characters with the
property `White_Space`. -/
def isBlank (c : Char) : Bool :=
  c == ' ' || c == '\t' || c == '\n' || c == '\x0C' || c == '\r'

/-- The characters that end a line. -/
def isNewline (c : Char) : Bool := c == '\n' || c == '\x0C' || c == '\r'

/-- Whether a text starts with the end of a line. -/
def startsWithNewline : Text → Bool
  | [] => false
  | c :: _ => isNewline c

/-- The characters, escapes apart, that a name may start with. -/
def isNameStart (c : Char) : Bool :=
  c.isAlpha || c == '_' || c == '\x00' || 0x80 ≤ c.toNat

/-- The characters, escapes apart, that a name may hold. -/
def isNameChar (c : Char) : Bool := isNameStart c || c.isDigit || c == '-'

/-- The value of a hexadecimal digit. -/
def hexValue? (c : Char) : Option Nat :=
  if c.isDigit then some (c.toNat - '0'.toNat)
  else if 'a' ≤ c ∧ c ≤ 'f' then some (c.toNat - 'a'.toNat + 10)
  else if 'A' ≤ c ∧ c ≤ 'F' then some (c.toNat - 'A'.toNat + 10)
  else none

/-! ## Escapes -/

/-- How far a reader is into an escape. -/
inductive Escape where
  /-- The backslash was read. -/
  | opened
  /-- Digits of this value were read, and so many more may follow. -/
  | digits (value left : Nat)
  /-- A carriage return closed the escape; a line feed after it is its other half. -/
  | carriage
  deriving DecidableEq, Repr

namespace Escape

/-- What the escape stands for if it ends here. -/
def value : Escape → Text
  | opened => ['\uFFFD']
  | digits v _ => [Char.ofNat v]
  | carriage => []

/-- Take one character of an escape: the state after it, with no state for an escape
that is complete, and what the escape turned out to stand for.  No answer means that
the escape had ended before this character. -/
def step : Escape → Char → Option (Option Escape × Text)
  | opened, c =>
    match hexValue? c with
    | some v => some (some (digits v 5), [])
    | none => if c = '\r' then some (some carriage, [c]) else some (none, [c])
  | digits v left, c =>
    match left, hexValue? c with
    | left + 1, some d => some (some (digits (16 * v + d) left), [])
    | _, _ =>
      if c = '\r' then some (some carriage, value (digits v left))
      else if isBlank c then some (none, value (digits v left))
      else none
  | carriage, c => if c = '\n' then some (none, []) else none

/-- The state of a reader that may be inside an escape, after a character that
belongs to the escape. -/
def next? (state : Option Escape) (c : Char) : Option (Option Escape) :=
  (state.bind fun e => e.step c).map Prod.fst

end Escape

/-! ## Names -/

/-- Whether a name starts here: with a name character that is no digit, with an escape, or
with a `-` in front of such a character, of another `-` or of a backslash.  What follows
that backslash does not count; if it ends the line, the `-` alone is the name. -/
def startsName : Text → Bool
  | [] => false
  | '\\' :: r => !startsWithNewline r
  | '-' :: c :: _ => isNameStart c || c == '-' || c == '\\'
  | c :: _ => isNameStart c

/-- Takes the characters of a name. -/
def Name.machine : Machine (Option Escape) := fun state c r =>
  match Escape.next? state c with
  | some next => some next
  | none =>
    if isNameChar c then some none
    else if c = '\\' ∧ !startsWithNewline r then some (some .opened)
    else none

/-- The name at the front of a text and what follows it. -/
def Name.read (s : Text) : Reading (Option Escape) := Reading.of Name.machine none s

/-- The state after the first character of a name. -/
def Name.stateAfter (c : Char) : Option Escape := if c = '\\' then some .opened else none

/-- The rest of a name that starts with `c`. -/
def Name.readAfter (c : Char) (r : Text) : Reading (Option Escape) :=
  Reading.of Name.machine (Name.stateAfter c) r

/-- What a name spells once its escapes are resolved. -/
def Name.spelling : Option Escape → Text → Text
  | state, [] => (state.map Escape.value).getD []
  | state, c :: r =>
    match state.bind fun e => e.step c with
    | some (next, out) => out ++ spelling next r
    | none =>
      (state.map Escape.value).getD [] ++
        if c = '\\' then spelling (some .opened) r else c :: spelling none r

/-- Whether a name spells the given lower-case word, in any letter case. -/
def Name.spells (word name : Text) : Bool :=
  (Name.spelling none name).map Char.toLower == word

end HostSheet.Syntax
