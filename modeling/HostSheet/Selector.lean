import HostSheet.Text.Pattern
import HostSheet.Attribute
import HostSheet.Options

set_option autoImplicit false

/-!
# Rewriting selectors

A component's stylesheet speaks of the component as `:host`.  Outside the component three
forms get a meaning of their own:

* `:host(argument)` becomes the host tag and the argument;
* `:host [attribute]` becomes the host tag, a space and the attribute;
* `[name` becomes `[data-name`, if attributes are to turn into `data-` attributes.

The forms are found in the characters alone.  Strings, comments and nested brackets mean
nothing here: an argument ends at the first closing bracket.
-/

namespace HostSheet

open Text

/-- The selector for the component itself. -/
def hostSelector : Text := [':', 'h', 'o', 's', 't']

namespace Selector

/-- Whether a selector is `:host` and nothing else, white space aside. -/
def isHostOnly (selector : Text) : Bool := trim selector == hostSelector

/-- Whether `:host` occurs in a selector. -/
def mentionsHost (selector : Text) : Bool := occursIn hostSelector selector

/-! ## Attributes in brackets -/

/-- The plain name at the front of a text and what follows it, if the text starts with
one. -/
def splitName? : Text → Option (Text × Text)
  | [] => none
  | c :: r =>
    if Attribute.isFirst c then
      some (c :: r.takeWhile Attribute.isInner, r.dropWhile Attribute.isInner)
    else none

theorem append_of_splitName? {s name rest : Text} (h : splitName? s = some (name, rest)) :
    name ++ rest = s := by
  cases s with
  | nil => simp [splitName?] at h
  | cons c r =>
    simp only [splitName?] at h
    split at h
    · obtain ⟨rfl, rfl⟩ := by simpa using h
      simp
    · simp at h

/-- Reads a bracket and the name after it, and puts the name into its `data-` form. -/
def readBracketed (exclude : List Text) (s : Text) : Option (Text × Text) := do
  let r ← after? ['['] s
  let (name, rest) ← splitName? r
  return ('[' :: Attribute.remap name exclude, rest)

theorem length_lt_of_readBracketed {exclude : List Text} {s out rest : Text}
    (h : readBracketed exclude s = some (out, rest)) : rest.length < s.length := by
  simp only [readBracketed, Option.bind_eq_bind, Option.bind_eq_some_iff, Prod.exists,
    Option.pure_def, Option.some.injEq, Prod.mk.injEq] at h
  obtain ⟨r, hr, name, rest', hs, _, rfl⟩ := h
  have hn := append_of_splitName? hs
  rw [after?_eq_some_iff] at hr
  rw [hr, ← hn]
  simp only [List.length_append, List.length_cons, List.length_nil]
  omega

/-- A bracket and a name, which turns into its `data-` form. -/
def bracketed (exclude : List Text) : Pattern :=
  ⟨readBracketed exclude, length_lt_of_readBracketed⟩

/-- Put every bracketed name into its `data-` form. -/
def remapNames (exclude : List Text) (s : Text) : Rewritten := (bracketed exclude).rewrite s

/-- Put every bracketed name into its `data-` form, none excluded. -/
def mapAttributesToData (s : Text) : Rewritten := remapNames [] s

/-- Put every bracketed name into its `data-` form, if the options ask for it. -/
def remapAttributes (o : Options) (s : Text) : Rewritten :=
  if o.dataAttributes then remapNames o.excluded s else .unchanged s

/-! ## The host in a selector -/

/-- Put the first name of a bracket's content into its `data-` form. -/
def remapFirstName (exclude : List Text) : Text → Text
  | [] => []
  | c :: r =>
    match splitName? (c :: r) with
    | some (name, rest) => Attribute.remap name exclude ++ rest
    | none => c :: remapFirstName exclude r

/-- Reads `:host(argument)`.  The argument ends at the first closing bracket. -/
def readHostFunction (o : Options) (s : Text) : Option (Text × Text) := do
  let r ← after? (hostSelector ++ ['(']) s
  let (argument, rest) ← upTo? ')' r
  return (o.hostTag ++ (remapAttributes o argument).text, rest)

theorem length_lt_of_readHostFunction {o : Options} {s out rest : Text}
    (h : readHostFunction o s = some (out, rest)) : rest.length < s.length := by
  simp only [readHostFunction, Option.bind_eq_bind, Option.bind_eq_some_iff, Prod.exists,
    Option.pure_def, Option.some.injEq, Prod.mk.injEq] at h
  obtain ⟨r, hr, argument, rest', hs, _, rfl⟩ := h
  rw [after?_eq_some_iff] at hr
  rw [upTo?_eq_some_iff] at hs
  rw [hr, hs.1]
  simp only [List.length_append, List.length_cons]
  omega

/-- The form `:host(argument)`, which turns into the host tag and the argument. -/
def hostFunction (o : Options) : Pattern :=
  ⟨readHostFunction o, length_lt_of_readHostFunction⟩

/-- Reads `:host [content]`, with white space of any kind and length in between.  The
content ends at the first closing bracket. -/
def readHostDescendant (o : Options) (s : Text) : Option (Text × Text) := do
  let r ← after? hostSelector s
  let (_, inner) ← splitSpace? r
  let inner ← after? ['['] inner
  let (content, rest) ← upTo? ']' inner
  let content := if o.dataAttributes then remapFirstName o.excluded content else content
  return (o.hostTag ++ [' ', '['] ++ content ++ [']'], rest)

theorem length_lt_of_readHostDescendant {o : Options} {s out rest : Text}
    (h : readHostDescendant o s = some (out, rest)) : rest.length < s.length := by
  simp only [readHostDescendant, Option.bind_eq_bind, Option.bind_eq_some_iff, Prod.exists,
    Option.pure_def, Option.some.injEq, Prod.mk.injEq] at h
  obtain ⟨r, hr, space, inner, hp, inner', hi, content, rest', hs, _, rfl⟩ := h
  rw [after?_eq_some_iff] at hr hi
  rw [upTo?_eq_some_iff] at hs
  have hn := append_of_splitSpace? hp
  rw [hr, ← hn, hi, hs.1]
  simp only [List.length_append, List.length_cons]
  omega

/-- The form `:host [content]`, which turns into the host tag, a space and the bracket. -/
def hostDescendant (o : Options) : Pattern :=
  ⟨readHostDescendant o, length_lt_of_readHostDescendant⟩

/-- Rewrite `:host(argument)` and then, in the result, `:host [content]`. -/
def rewriteHost (o : Options) (s : Text) : Rewritten :=
  ((hostFunction o).rewrite s).andThen (hostDescendant o).rewrite

/-- Rewrite a selector that mentions `:host`.  If neither form with `:host` is in it, its
attributes are remapped as in any other selector; if one is, the result is final. -/
def rewrite (o : Options) (s : Text) : Rewritten :=
  (rewriteHost o s).orElse (remapAttributes o s)

end Selector

end HostSheet
