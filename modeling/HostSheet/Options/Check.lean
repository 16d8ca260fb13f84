import HostSheet.Options
import HostSheet.Attribute
import HostSheet.Text.Quoted

set_option autoImplicit false

/-!
# Checking options

Some options would break the stylesheet they are applied to: a host tag or a layer name
with a bracket in it would open or close a block.  Those are refused.  An excluded name
that is no attribute name at all does no harm and is only pointed out.
-/

namespace HostSheet

/-- Why options are refused. -/
inductive OptionFault where
  | hostTag (tag : Text)
  | layerName (name : Text)
  deriving DecidableEq, Repr

namespace OptionFault

/-- The option that is refused. -/
def value : OptionFault → Text
  | hostTag tag => tag
  | layerName name => name

def message : OptionFault → Text
  | hostTag tag =>
    "Invalid host tag ".toList ++ Text.quote tag ++
      ": must be non-empty and contain no braces".toList
  | layerName name =>
    "Invalid layer name ".toList ++ Text.quote name ++
      ": must not contain braces or semicolons".toList

/-- What is said when options that come from no file are refused. -/
def configMessage (f : OptionFault) : Text := "Invalid configuration: ".toList ++ f.message

end OptionFault

/-- Whether a character opens or closes a block. -/
def isBrace (c : Char) : Bool := c == '\x7b' || c == '\x7d'

namespace Options

/-- Whether a host tag may stand in a selector. -/
def isHostTag (tag : Text) : Bool := !tag.isEmpty && !tag.any isBrace

/-- Whether a layer may have this name. -/
def isLayerName (name : Text) : Bool := !name.any fun c => isBrace c || c == ';'

/-- Refuse options that would break a stylesheet, the host tag first. -/
def check (o : Options) : Except OptionFault Unit :=
  if !isHostTag o.hostTag then .error (.hostTag o.hostTag)
  else
    match o.layerName with
    | some name => if isLayerName name then .ok () else .error (.layerName name)
    | none => .ok ()

/-- The excluded names that are no attribute names, so that excluding them changes
nothing. -/
def uselessExclusions (o : Options) : List Text := o.excluded.filter fun n => !Attribute.isName n

/-- How an excluded name that changes nothing is pointed out. -/
def uselessMessage (name : Text) : Text :=
  "Excluded attribute ".toList ++ Text.quote name ++
    " never matches an attribute selector".toList

/-- All that there is to point out about options that are not refused. -/
def warnings (o : Options) : List Text := o.uselessExclusions.map uselessMessage

end Options

end HostSheet
