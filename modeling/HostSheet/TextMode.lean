import HostSheet.HostBlock
import HostSheet.Layer

set_option autoImplicit false

/-!
# Rewriting a stylesheet as text

The text is not parsed.  Host blocks are unwrapped, then the forms with `:host` are
rewritten, then attributes are remapped everywhere, and the whole goes into its layer.
Nothing can go wrong: a text without any of the forms passes as it is.
-/

namespace HostSheet

/-- A text rewritten without its layer. -/
def rewriteText (o : Options) (s : Text) : Text :=
  let unwrapped := (HostBlock.unwrap s).text
  let rewritten := (Selector.rewriteHost o unwrapped).text
  (Selector.remapAttributes o rewritten).text

/-- A text rewritten and put into its layer. -/
def transformText (o : Options) (s : Text) : Text := wrapInLayer (rewriteText o s) o.layer

end HostSheet
