import HostSheet.Text

set_option autoImplicit false

/-!
# Replacing every match of a pattern

A pattern reads a match off the front of a text and says what stands in its
place.  `Pattern.replaceAll` goes through a text from left to right, takes the
first match it meets, and goes on after that match, so matches never overlap and
a replacement is never read again.

A match is never empty.  That is a field of `Pattern`, and it is why the walk
ends.
-/

namespace HostSheet.Text

/-- A reader of matches at the front of a text, with the text that replaces each. -/
structure Pattern where
  /-- The replacement and the text after the match, if a match starts here. -/
  read : Text → Option (Text × Text)
  /-- A match takes at least one character. -/
  read_shorter : ∀ {s out rest : Text},
    read s = some (out, rest) → rest.length < s.length

/-- A text after replacement, with whether any match was found. -/
structure Rewritten where
  text : Text
  matched : Bool
  deriving DecidableEq, Repr

namespace Rewritten

/-- A text in which nothing was looked for. -/
def unchanged (s : Text) : Rewritten := ⟨s, false⟩

/-- Rewrite further.  A match in either step counts. -/
def andThen (r : Rewritten) (f : Text → Rewritten) : Rewritten :=
  ⟨(f r.text).text, r.matched || (f r.text).matched⟩

/-- Rewrite the same text in another way if nothing matched. -/
def orElse (r : Rewritten) (other : Rewritten) : Rewritten :=
  if r.matched then r else other

end Rewritten

namespace Pattern

/-- The text with every match replaced. -/
def replaceAll (p : Pattern) : Text → Text
  | [] => []
  | c :: r =>
    match _h : p.read (c :: r) with
    | some (out, rest) => out ++ replaceAll p rest
    | none => c :: replaceAll p r
termination_by s => s.length
decreasing_by
  · exact p.read_shorter _h
  · simp

/-- Whether the pattern matches anywhere. -/
def matchesIn (p : Pattern) : Text → Bool
  | [] => false
  | c :: r => (p.read (c :: r)).isSome || matchesIn p r

/-- Replace every match and say whether there was one. -/
def rewrite (p : Pattern) (s : Text) : Rewritten := ⟨p.replaceAll s, p.matchesIn s⟩

@[simp] theorem replaceAll_nil (p : Pattern) : p.replaceAll [] = [] := by
  rw [replaceAll]

theorem replaceAll_of_read {p : Pattern} {c : Char} {r out rest : Text}
    (h : p.read (c :: r) = some (out, rest)) :
    p.replaceAll (c :: r) = out ++ p.replaceAll rest := by
  rw [replaceAll]; split <;> simp_all

theorem replaceAll_of_read_eq_none {p : Pattern} {c : Char} {r : Text}
    (h : p.read (c :: r) = none) : p.replaceAll (c :: r) = c :: p.replaceAll r := by
  rw [replaceAll]; split <;> simp_all

/-- A text without a match stays as it is. -/
theorem replaceAll_of_matchesIn_eq_false {p : Pattern} {s : Text}
    (h : p.matchesIn s = false) : p.replaceAll s = s := by
  induction s with
  | nil => simp
  | cons c r ih =>
    simp only [matchesIn, Bool.or_eq_false_iff, Option.isSome_eq_false_iff,
      Option.isNone_iff_eq_none] at h
    rw [replaceAll_of_read_eq_none h.1, ih h.2]

end Pattern

end HostSheet.Text
