import HostSheet.Bundle

set_option autoImplicit false

/-!
# Bundles as JSON

A bundle is written as a JSON object over four lines, its name first.
-/

namespace HostSheet.Bundle

/-- A control character by its code, as `\u001f`. -/
def jsonCode (c : Char) : Text :=
  let digits := Nat.toDigits 16 c.toNat
  ['\\', 'u'] ++ List.replicate (4 - digits.length) '0' ++ digits

/-- A character as it stands in a JSON string. -/
def jsonChar (c : Char) : Text :=
  match c with
  | '"' => ['\\', '"']
  | '\\' => ['\\', '\\']
  | '\x08' => ['\\', 'b']
  | '\x0C' => ['\\', 'f']
  | '\n' => ['\\', 'n']
  | '\r' => ['\\', 'r']
  | '\t' => ['\\', 't']
  | c => if c.toNat < 0x20 then jsonCode c else [c]

/-- A text as a JSON string. -/
def jsonString (s : Text) : Text := '"' :: s.flatMap jsonChar ++ ['"']

/-- A bundle as a JSON object. -/
def json (b : Bundle) : Text :=
  "\x7b\n  \"name\": ".toList ++ jsonString b.name ++ ",\n  \"css\": ".toList ++
    jsonString b.css ++ "\n\x7d".toList

/-- A bundle as a stylesheet, its name in a comment on a line of its own. -/
def plain (b : Bundle) : Text :=
  ['/', '*', ' '] ++ b.name ++ [' ', '*', '/', '\n'] ++ b.css

end HostSheet.Bundle
