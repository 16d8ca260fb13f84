import HostSheet.Selector

set_option autoImplicit false

/-!
# Unwrapping host blocks in a text

The declarations of `:host { … }` belong to the component itself, and its stylesheet is
nested where the component is.  So the block goes and its contents stay.

As with selectors, a block is found in the characters alone: it ends at the first closing
bracket, whatever opened before it.
-/

namespace HostSheet.HostBlock

open Text

/-- The text without the white space at the start of each line.  A run of white space at
the start of a line goes as a whole, the line ends in it included; `atStart` says whether
the text continues such a run. -/
def flushLeft (atStart : Bool) : Text → Text
  | [] => []
  | c :: r =>
    if atStart && isSpace c then flushLeft true r else c :: flushLeft (c == '\n') r

/-- The contents of a block as they stand once the block is gone: without white space at
their ends and at the start of each line. -/
def contents (body : Text) : Text := flushLeft true (trim body)

/-- Reads `:host { body }`, with or without white space of any kind before the bracket. -/
def readBlock (s : Text) : Option (Text × Text) := do
  let r ← after? hostSelector s
  let inner ← after? ['\x7b'] (dropStart isSpace r)
  let (body, rest) ← upTo? '\x7d' inner
  return (contents body, rest)

theorem length_lt_of_readBlock {s out rest : Text} (h : readBlock s = some (out, rest)) :
    rest.length < s.length := by
  simp only [readBlock, Option.bind_eq_bind, Option.bind_eq_some_iff, Prod.exists,
    Option.pure_def, Option.some.injEq, Prod.mk.injEq] at h
  obtain ⟨r, hr, inner, hi, body, rest', hs, _, rfl⟩ := h
  rw [after?_eq_some_iff] at hr hi
  rw [upTo?_eq_some_iff] at hs
  have hd : (dropStart isSpace r).length ≤ r.length := (List.dropWhile_sublist _).length_le
  rw [hi, hs.1] at hd
  simp only [List.length_append, List.length_cons, List.length_nil] at hd
  rw [hr, List.length_append]
  omega

/-- The form `:host { body }`, which turns into the contents of the body. -/
def block : Pattern := ⟨readBlock, length_lt_of_readBlock⟩

/-- Replace every host block by its contents. -/
def unwrap (s : Text) : Rewritten := block.rewrite s

end HostSheet.HostBlock
