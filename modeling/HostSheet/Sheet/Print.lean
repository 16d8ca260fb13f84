import HostSheet.Sheet

set_option autoImplicit false

/-!
# Writing a stylesheet

A node is written with the gaps it keeps.  Semicolons are not kept with the nodes:
declarations and at-rules without a block all get one, except the last node of a list
that is not a comment, which gets one only if the list's ending says so.
-/

namespace HostSheet

namespace RuleHead

def print (h : RuleHead) : Text := h.before ++ h.selector ++ h.between

end RuleHead

namespace AtHead

def print (h : AtHead) : Text :=
  h.before ++ '@' :: h.name ++ h.afterName ++ h.params ++ h.between

end AtHead

namespace Declaration

def print (d : Declaration) : Text :=
  d.before ++ d.prop ++ d.between ++ d.value ++ d.after

end Declaration

namespace Comment

def print (c : Comment) : Text := c.before ++ '/' :: '*' :: c.text ++ ['*', '/']

end Comment

namespace Node

/-- The semicolon, where there is one. -/
def terminator (terminated : Bool) : Text := if terminated then [';'] else []

mutual

/-- A node as text, with its semicolon if it takes one and is `terminated`. -/
def print (terminated : Bool) : Node → Text
  | rule head nodes ending =>
    head.print ++ '\x7b' :: printAll ending.terminated nodes ++ ending.after ++ ['\x7d']
  | atBlock head nodes ending =>
    head.print ++ '\x7b' :: printAll ending.terminated nodes ++ ending.after ++ ['\x7d']
  | atStatement head _ => head.print ++ terminator terminated
  | declaration d => d.print ++ terminator terminated
  | comment c => c.print

/-- Nodes one after the other.  A semicolon separates a statement from a later node that
is not a comment; `terminated` says whether the last statement has one, too. -/
def printAll (terminated : Bool) : List Node → Text
  | [] => []
  | n :: ns => print (terminated || ns.any (!·.isComment)) n ++ printAll terminated ns

end

end Node

namespace Sheet

/-- The text of a stylesheet. -/
def print (s : Sheet) : Text := Node.printAll s.ending.terminated s.nodes ++ s.ending.after

end Sheet

end HostSheet
