import Mathlib
import HostSheet.Syntax.Token

set_option autoImplicit false

/-!
# Which tokens there are

`Token` has more values than a text can give: a blank that is no blank, a bracket with a
name in front of a brace.  `Token.IsRead` holds of the tokens that are read off some text,
and here is what is true of these.
-/

namespace HostSheet.Syntax.Token

/-- A token that stands at the front of some text. -/
def IsRead (t : Token) : Prop := ∃ c r, (read c r).1 = t

/-- All tokens of a text are read off it. -/
theorem isRead_of_mem_ofText {s : Text} {t : Token} (h : t ∈ ofText s) : t.IsRead := by
  fun_induction ofText s with
  | case1 => cases h
  | case2 c r ih =>
    rcases List.mem_cons.1 h with rfl | h
    · exact ⟨c, r, rfl⟩
    · exact ih h

theorem IsRead.text_ne_nil {t : Token} (h : t.IsRead) : t.text ≠ [] := by
  obtain ⟨c, r, rfl⟩ := h
  obtain ⟨s, hs, _⟩ := splits_read c r
  simp [hs]

/-! ## The marks

Blanks, separators and brackets are the tokens the reader tells apart.  Each comes from one
reader only. -/

theorem readComment_fst (r : Text) :
    ∃ body isClosed, (readComment r).1 = .comment body isClosed := by
  unfold readComment
  split <;> exact ⟨_, _, rfl⟩

theorem readArgument_fst (name r : Text) :
    (∃ raw, (readArgument name r).1 = .other raw) ∨
      readArgument name r = (.opener name .round, r) := by
  unfold readArgument
  split
  · exact .inl ⟨_, rfl⟩
  · exact .inr rfl

theorem readNamed_fst (c : Char) (r : Text) :
    (∃ raw, (readNamed c r).1 = .other raw) ∨
      ∃ name, (readNamed c r).1 = .opener name .round := by
  unfold readNamed
  dsimp only
  split
  · rename_i rest _
    rcases readArgument_fst (c :: (Name.readAfter c r).taken) rest with h | h
    · exact .inl h
    · exact .inr ⟨_, by rw [h]⟩
  · exact .inl ⟨_, rfl⟩

theorem readSign_fst (c : Char) (r : Text) : ∃ raw, (readSign c r).1 = .other raw := by
  unfold readSign
  split <;> exact ⟨_, rfl⟩

/-- A token that is read is of one of these kinds. -/
inductive Kind : Token → Prop
  | blank {c : Char} (h : isBlank c = true) : Kind (.blank c)
  | comment (body : Text) (isClosed : Bool) : Kind (.comment body isClosed)
  | mark {c : Char} {t : Token} (h : ofMark? c = some t) : Kind t
  | function (name : Text) : Kind (.opener name .round)
  | atName (name : Text) : Kind (.atName name)
  | quoted {c : Char} (r : Text) (hc : c = '"' ∨ c = '\'') : Kind (.quoted (c :: r))
  | other (raw : Text) : Kind (.other raw)

theorem kind_readMark (c : Char) (r : Text) : Kind (readMark c r).1 := by
  unfold readMark
  split
  · obtain ⟨body, isClosed, h⟩ := readComment_fst _
    rw [h]
    exact .comment body isClosed
  · split
    · rename_i h
      exact .mark h
    · obtain ⟨raw, h⟩ := readSign_fst _ _
      rw [h]
      exact .other raw

theorem IsRead.kind {t : Token} (h : t.IsRead) : Kind t := by
  obtain ⟨c, r, rfl⟩ := h
  unfold read
  split
  · rename_i hb
    exact .blank hb
  split
  · rename_i hc
    exact .quoted _ hc
  split
  · exact .other _
  split
  · obtain ⟨raw, h⟩ := readSign_fst c r
    rw [h]
    exact .other raw
  split
  · rcases readNamed_fst c r with ⟨raw, h⟩ | ⟨name, h⟩
    · rw [h]; exact .other raw
    · rw [h]; exact .function name
  split
  · exact .atName _
  split
  · exact .other _
  · exact kind_readMark c r

/-- Nothing but the brace itself belongs to an opening brace. -/
theorem IsRead.opener_curly {name : Text} (h : (opener name .curly).IsRead) : name = [] := by
  cases h.kind with
  | mark h =>
    unfold ofMark? at h
    split at h <;> cases h
    rfl

/-- A string starts with its quote. -/
theorem IsRead.quoted {raw : Text} (h : (quoted raw).IsRead) :
    ∃ c r, raw = c :: r ∧ (c = '"' ∨ c = '\'') := by
  cases h.kind with
  | mark h =>
    unfold ofMark? at h
    split at h <;> cases h
  | quoted r hc => exact ⟨_, r, rfl, hc⟩

theorem IsRead.isBlank {c : Char} (h : (blank c).IsRead) : isBlank c = true := by
  cases h.kind with
  | blank h => exact h
  | mark h =>
    unfold ofMark? at h
    split at h <;> cases h

end HostSheet.Syntax.Token
