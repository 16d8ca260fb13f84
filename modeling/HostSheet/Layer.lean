import HostSheet.Text

set_option autoImplicit false

/-!
# Cascade layers

A text is put into a layer as a whole, on lines of its own.
-/

namespace HostSheet

/-- The text inside `@layer name { … }`, between two line breaks; without a name, or with
an empty one, the text alone. -/
def wrapInLayer (s : Text) : Option Text → Text
  | none | some [] => s
  | some name =>
    ['@', 'l', 'a', 'y', 'e', 'r', ' '] ++ name ++ [' ', '\x7b', '\n'] ++ s ++ ['\n', '\x7d']

end HostSheet
