import HostSheet.Syntax.Position
import HostSheet.Text.Quoted

set_option autoImplicit false

/-!
# What can be wrong with a stylesheet

A text is no stylesheet for one of six reasons, and each points at a place in the text:
at the bracket, the opening quote, the comment or the word that caused it.  A seventh is kept
for what only the tokens are to blame for, and it names nothing in the text.
-/

namespace HostSheet

/-- Why a text is not a stylesheet. -/
inductive Defect where
  | unclosedBlock
  | unclosedString
  | unclosedComment
  | unexpectedClosingBrace
  | missingSelector
  /-- A statement that is neither a declaration nor an at-rule nor the head of a block. -/
  | unknownWord (word : Text)
  /-- An error of the tokens that is none of the others. -/
  | invalid
  deriving DecidableEq, Repr

namespace Defect

/-- What the message says about a defect, place apart. -/
def describe : Defect → Text
  | unclosedBlock => "Unclosed block".toList
  | unclosedString => "Unclosed string".toList
  | unclosedComment => "Unclosed comment".toList
  | unexpectedClosingBrace => "Unexpected \x7d".toList
  | missingSelector => "Missing selector before \x7b".toList
  | unknownWord word => "Unknown word ".toList ++ Text.quote word
  | invalid => "Invalid CSS".toList

end Defect

/-- What stops a reading: a defect that the reader of statements finds, or an error of the tokens
alone, such as their end where more are needed. -/
inductive Cause where
  | defect (d : Defect)
  | tokens
  deriving DecidableEq, Repr

namespace Cause

/-- The defect that is reported. -/
def toDefect : Cause → Defect
  | defect d => d
  | tokens => .invalid

end Cause

/-- What stops a reading, and its offset in the text. -/
structure Fault where
  cause : Cause
  offset : Nat
  deriving DecidableEq, Repr

/-- A defect and its line and column. -/
structure ParseError where
  defect : Defect
  position : Syntax.Position
  deriving DecidableEq, Repr

namespace Fault

/-- The fault as it is reported for the text it was found in. -/
def locate (s : Text) (f : Fault) : ParseError :=
  ⟨f.cause.toDefect, Syntax.Position.ofOffset s f.offset⟩

end Fault

namespace ParseError

/-- What is wrong, and where. -/
def message (e : ParseError) : Text :=
  e.defect.describe ++ " at ".toList ++ Nat.toDigits 10 e.position.line ++
    ':' :: Nat.toDigits 10 e.position.column

end ParseError

end HostSheet
