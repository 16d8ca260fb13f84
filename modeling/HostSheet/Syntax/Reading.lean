import HostSheet.Text

set_option autoImplicit false

/-!
# Reading a piece off the front of a text

Names, strings, comments, addresses and numbers are each read by a small machine:
in every state it sees one character and the text after it, and either takes the
character and moves on or stops in front of it.  `Reading.of` runs such a machine.

What is taken and what is left are the whole text (`taken_append_rest`), whatever
the machine does.
-/

namespace HostSheet.Syntax

/-- A machine that takes characters off the front of a text.  It sees the character
and what follows it, and answers with its next state, or stops. -/
abbrev Machine (σ : Type) := σ → Char → Text → Option σ

/-- What a machine took, the state it stopped in and what it left. -/
structure Reading (σ : Type) where
  taken : Text
  state : σ
  rest : Text

namespace Reading

variable {σ : Type}

/-- Put a character in front of what was taken. -/
def push (c : Char) (r : Reading σ) : Reading σ := { r with taken := c :: r.taken }

/-- Run a machine until it stops or the text ends. -/
def of (step : Machine σ) : σ → Text → Reading σ
  | state, [] => ⟨[], state, []⟩
  | state, c :: r =>
    match step state c r with
    | some next => (of step next r).push c
    | none => ⟨[], state, c :: r⟩

/-- Nothing is lost. -/
theorem taken_append_rest (step : Machine σ) (state : σ) (s : Text) :
    (of step state s).taken ++ (of step state s).rest = s := by
  induction s generalizing state with
  | nil => rfl
  | cons c r ih =>
    rw [of]
    split
    · simp [push, ih]
    · rfl

theorem length_rest_le (step : Machine σ) (state : σ) (s : Text) :
    (of step state s).rest.length ≤ s.length := by
  have h := congrArg List.length (taken_append_rest step state s)
  rw [List.length_append] at h
  omega

end Reading

end HostSheet.Syntax
