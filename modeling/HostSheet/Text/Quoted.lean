import HostSheet.Text
import HostSheet.Text.Unprintable
import HostSheet.Text.GraphemeExtend
import HostSheet.Text.Ignorable

set_option autoImplicit false

/-!
# Quoted text

Messages show a name or a word between double quotes, in such a way that every character
can be told: a quote and a backslash get a backslash, a few controls a letter, and what
would not show, or would change the look of its neighbour, its code point in hexadecimal.
-/

namespace HostSheet.Text

/-- A character by its code point, as `\u{301}`. -/
def quoteCodePoint (c : Char) : Text :=
  ['\\', 'u', '\x7b'] ++ Nat.toDigits 16 c.toNat ++ ['\x7d']

/-- A character as it stands between quotes. -/
def quoteChar (c : Char) : Text :=
  match c with
  | '\x00' => ['\\', '0']
  | '\t' => ['\\', 't']
  | '\n' => ['\\', 'n']
  | '\r' => ['\\', 'r']
  | '"' => ['\\', '"']
  | '\\' => ['\\', '\\']
  | c => if isAttaching c || isUnprintable c || isIgnorable c then quoteCodePoint c else [c]

/-- A text between quotes. -/
def quote (s : Text) : Text := '"' :: s.flatMap quoteChar ++ ['"']

end HostSheet.Text
