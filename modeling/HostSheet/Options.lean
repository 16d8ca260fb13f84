import HostSheet.Text

set_option autoImplicit false

/-!
# Options

What a user can choose about the rewriting of a stylesheet.
-/

namespace HostSheet

/-- How stylesheets are rewritten. -/
structure Options where
  /-- What stands in place of `:host` in a rewritten selector. -/
  hostTag : Text := ['&']
  /-- The cascade layer around the result.  An empty name is no layer. -/
  layerName : Option Text := none
  /-- Whether attributes turn into `data-` attributes. -/
  dataAttributes : Bool := false
  /-- The attributes that stay as they are.  No list is not the same as an empty one: a
  bundle has a list of its own to put in place of none. -/
  excludeFromData : Option (List Text) := none
  deriving DecidableEq, Repr

namespace Options

/-- The layer to wrap the result in, if any. -/
def layer (o : Options) : Option Text := o.layerName.filter (· ≠ [])

/-- The attributes that stay as they are. -/
def excluded (o : Options) : List Text := o.excludeFromData.getD []

/-- The options with the list of a bundle, on which only `part` stands, where none was
given. -/
def forBundle (o : Options) : Options :=
  { o with excludeFromData := o.excludeFromData.or (some [['p', 'a', 'r', 't']]) }

/-- The options without a layer. -/
def withoutLayer (o : Options) : Options := { o with layerName := none }

end Options

end HostSheet
