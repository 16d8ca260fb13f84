import HostSheet.TextMode
import HostSheet.Digest

set_option autoImplicit false

/-!
# Bundles

A bundle is a rewritten stylesheet together with a name that depends on its text alone, so
that equal stylesheets share a name.
-/

namespace HostSheet

/-- How many digits a content name has. -/
def nameLength : Nat := 8

/-- The name of a text: the first digits of the digest of its bytes. -/
def contentName (s : Text) : Text := (Digest.hex (Digest.sha256 (Text.utf8 s))).take nameLength

/-- A rewritten stylesheet and its content name. -/
structure Bundle where
  name : Text
  css : Text
  deriving DecidableEq, Repr

namespace Bundle

/-- Rewrite a stylesheet as text and name the result, layer included. -/
def ofText (o : Options) (s : Text) : Bundle :=
  let css := transformText o.forBundle s
  ⟨contentName css, css⟩

end Bundle

end HostSheet
