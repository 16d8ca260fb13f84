import HostSheet.Text

set_option autoImplicit false

/-!
# Attribute names

The attributes of a component turn into `data-` attributes, except those on a list.  Only
plain names take part: an ASCII letter or `_`, then ASCII letters, digits, `_` and `-`.
-/

namespace HostSheet.Attribute

/-- The characters a plain name starts with. -/
def isFirst (c : Char) : Bool := c.isAlpha || c == '_'

/-- The characters of a plain name. -/
def isInner (c : Char) : Bool := isFirst c || c.isDigit || c == '-'

/-- Whether a text is a plain name. -/
def isName : Text → Bool
  | [] => false
  | c :: r => isFirst c && r.all isInner

/-- What a mapped name starts with. -/
def dataMark : Text := ['d', 'a', 't', 'a', '-']

/-- Whether a name is on the list of names left alone. -/
def isExcluded (name : Text) (exclude : List Text) : Bool := exclude.contains name

/-- The `data-` form of a name that is not excluded. -/
def map (name : Text) (exclude : List Text) : Text :=
  if isExcluded name exclude then name else dataMark ++ name

/-- Whether a name stays as it is: it is excluded or has its `data-` form already. -/
def isFinal (name : Text) (exclude : List Text) : Bool :=
  dataMark.isPrefixOf name || isExcluded name exclude

/-- The `data-` form of a name, unless it is final. -/
def remap (name : Text) (exclude : List Text) : Text :=
  if isFinal name exclude then name else dataMark ++ name

theorem isFinal_remap (name : Text) (exclude : List Text) :
    isFinal (remap name exclude) exclude = true := by
  unfold remap
  split
  · assumption
  · simp [isFinal, List.isPrefixOf_iff_prefix]

/-- A remapped name is final, so that remapping again changes nothing. -/
theorem remap_remap (name : Text) (exclude : List Text) :
    remap (remap name exclude) exclude = remap name exclude := by
  rw [remap.eq_def (remap name exclude), if_pos (isFinal_remap name exclude)]

end HostSheet.Attribute
