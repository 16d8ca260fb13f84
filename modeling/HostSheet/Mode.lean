import HostSheet.TextMode
import HostSheet.TreeMode

set_option autoImplicit false

/-!
# The two ways to rewrite a stylesheet
-/

namespace HostSheet

/-- How a stylesheet is looked at while it is rewritten. -/
inductive Mode where
  /-- As characters. -/
  | text
  /-- As a tree of rules. -/
  | tree
  deriving DecidableEq, Repr, Inhabited

/-- Rewrite a stylesheet.  Only the reading of the tree can fail. -/
def transform (mode : Mode) (o : Options) (s : Text) : Except ParseError Text :=
  match mode with
  | .text => .ok (transformText o s)
  | .tree => transformTree o s

/-- What is said when a stylesheet could not be rewritten. -/
def transformMessage (e : ParseError) : Text :=
  "Failed to parse stylesheet: ".toList ++ e.message

end HostSheet
