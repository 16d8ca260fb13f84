import Mathlib
import HostSheet.Proofs.Breaks
import HostSheet.Proofs.Frames

set_option autoImplicit false

/-!
# Plain names as tokens

A name of ASCII letters, digits, `_` and `-` is one token in front of every break, on its own
(`Token.parted_name`) and behind an at sign (`Token.parted_atName`).
-/

namespace HostSheet.Syntax

/-- A name of ASCII letters, digits, `_` and `-`. -/
def Name.isPlain (s : Text) : Bool := startsName s && s.all Attribute.isInner

theorem isBlank_of_isInner {c : Char} (h : Attribute.isInner c = true) : isBlank c = false := by
  cases hb : isBlank c with
  | false => rfl
  | true =>
    rw [isInner_of_isBlank hb] at h
    cases h

namespace Name

theorem isNameChar_of_isInner {c : Char} (h : Attribute.isInner c = true) :
    isNameChar c = true := by
  simp only [Attribute.isInner, Attribute.isFirst, Bool.or_eq_true] at h
  simp only [isNameChar, isNameStart, Bool.or_eq_true]
  tauto

theorem ne_of_isInner {c : Char} (h : Attribute.isInner c = true) {a : Char}
    (ha : Attribute.isInner a = false) : c ≠ a := by
  rintro rfl
  rw [h] at ha
  cases ha

theorem isInner_of_isPlain {name : Text} (h : isPlain name = true) {c : Char} (hc : c ∈ name) :
    Attribute.isInner c = true := by
  rw [isPlain, Bool.and_eq_true, List.all_eq_true] at h
  exact h.2 c hc

/-- The characters of a plain name are taken up to the break behind it. -/
theorem reading_of_inner {u w : Text} (h : ∀ c ∈ u, Attribute.isInner c = true) (hw : Breaks w) :
    Reading.of machine none (u ++ w) = ⟨u, none, w⟩ := by
  induction u with
  | nil => exact of_machine_break (s := []) hw fun _ => rfl
  | cons c u ih =>
    have hc := h c List.mem_cons_self
    rw [List.cons_append, Reading.of, machine_of_ne (ne_of_isInner hc rfl),
      if_pos (isNameChar_of_isInner hc)]
    dsimp only
    rw [ih fun a ha => h a (List.mem_cons_of_mem _ ha)]
    rfl

theorem isDigit_of_isNameStart {c : Char} (h : isNameStart c = true) : c.isDigit = false := by
  simp only [isNameStart, Bool.or_eq_true, beq_iff_eq, decide_eq_true_eq] at h
  rcases h with ((h | rfl) | rfl) | h
  · simp only [Char.isAlpha, Char.isUpper, Char.isLower, Char.isDigit, Bool.or_eq_true] at h ⊢
    grind
  · rfl
  · rfl
  · have hlt : ¬c.val ≤ '9'.val := fun hle => by
      have hnat : c.toNat ≤ 57 := UInt32.le_iff_toNat_le.1 hle
      omega
    simp only [Char.isDigit, decide_eq_false hlt, Bool.and_false]

/-- What a plain name starts with: a letter or `_`, or a `-` in front of one of these or of
another `-`. -/
theorem start_of_isPlain {c : Char} {u : Text} (h : isPlain (c :: u) = true) :
    (c ≠ '-' ∧ isNameStart c = true) ∨
      c = '-' ∧ ∃ b v, u = b :: v ∧ (isNameStart b = true ∨ b = '-') := by
  rw [isPlain, Bool.and_eq_true, List.all_cons, Bool.and_eq_true, List.all_eq_true] at h
  obtain ⟨hstart, hc, hu⟩ := h
  by_cases hdash : c = '-'
  · subst hdash
    cases u with
    | nil => cases hstart
    | cons b v =>
      have hbackslash : b ≠ '\\' := ne_of_isInner (hu b List.mem_cons_self) rfl
      rw [startsName, Bool.or_eq_true, Bool.or_eq_true, beq_iff_eq, beq_iff_eq] at hstart
      exact .inr ⟨rfl, b, v, rfl, hstart.resolve_right hbackslash⟩
  · have hbackslash : c ≠ '\\' := ne_of_isInner hc rfl
    unfold startsName at hstart
    split at hstart <;> simp_all

end Name

namespace Token

theorem startsUnsigned_cons_of_ne {c : Char} (h : c ≠ '.') (r : Text) :
    startsUnsigned (c :: r) = c.isDigit := by
  unfold startsUnsigned
  split
  · rename_i heq
    exact absurd (List.cons.inj heq).1 h
  · rfl

/-! A plain name starts neither a number nor the arrow that ends a comment. -/

section Plain

variable {c : Char} {u : Text}

theorem startsNumber_of_isPlain (h : Name.isPlain (c :: u) = true) (w : Text) :
    startsNumber (c :: (u ++ w)) = false := by
  have hc := Name.isInner_of_isPlain h List.mem_cons_self
  have hunsigned : ∀ {b : Char} (r : Text), Attribute.isInner b = true → b.isDigit = false →
      startsUnsigned (b :: r) = false := by
    intro b r hb hdigit
    rw [startsUnsigned_cons_of_ne (Name.ne_of_isInner hb rfl), hdigit]
  rw [startsNumber_cons]
  rcases Name.start_of_isPlain h with ⟨hdash, hname⟩ | ⟨rfl, b, v, rfl, hb⟩
  · have hplus : c ≠ '+' := Name.ne_of_isInner hc rfl
    rw [if_neg (not_or.2 ⟨hplus, hdash⟩)]
    exact hunsigned _ hc (Name.isDigit_of_isNameStart hname)
  · rw [if_pos (.inr rfl), List.cons_append]
    refine hunsigned _ (Name.isInner_of_isPlain h (by simp)) ?_
    rcases hb with hb | rfl
    · exact Name.isDigit_of_isNameStart hb
    · rfl

theorem startsDashArrow_of_isPlain (h : Name.isPlain (c :: u) = true) {w : Text}
    (hw : Breaks w) : startsDashArrow (c :: (u ++ w)) = false := by
  rw [startsDashArrow, ← List.cons_append, isPrefixOf_break hw rfl]
  cases hp : ['-', '-', '>'].isPrefixOf (c :: u) with
  | false => rfl
  | true =>
    rw [List.isPrefixOf_iff_prefix] at hp
    have hinner := Name.isInner_of_isPlain h (hp.subset (a := '>') (by simp))
    cases hinner

theorem startsName_of_isPlain (h : Name.isPlain (c :: u) = true) (w : Text) :
    startsName (c :: (u ++ w)) = true := by
  rcases Name.start_of_isPlain h with ⟨hdash, hname⟩ | ⟨rfl, b, v, rfl, hb⟩
  · have hinner := Name.isInner_of_isPlain h List.mem_cons_self
    have hbackslash : c ≠ '\\' := Name.ne_of_isInner hinner rfl
    unfold startsName
    split <;> simp_all
  · rw [List.cons_append, startsName]
    rcases hb with hb | rfl
    · rw [hb]
      rfl
    · rfl

end Plain

variable {name w : Text}

/-- A plain name in front of a break is a token. -/
theorem parted_name (h : Name.isPlain name = true) (hw : Breaks w) : Parted [.other name] w := by
  cases name with
  | nil => cases h
  | cons c u =>
    have hc := Name.isInner_of_isPlain h List.mem_cons_self
    have hblank : isBlank c = false := isBlank_of_isInner hc
    have hu : ∀ a ∈ u, Attribute.isInner a = true := fun a ha =>
      Name.isInner_of_isPlain h (List.mem_cons_of_mem _ ha)
    have hquote : ¬(c = '"' ∨ c = '\'') := by
      rintro (rfl | rfl) <;> cases hc
    have hreading : Name.readAfter c (u ++ w) = ⟨u, none, w⟩ := by
      have hbackslash : c ≠ '\\' := Name.ne_of_isInner hc rfl
      rw [Name.readAfter, Name.stateAfter, if_neg hbackslash, Name.reading_of_inner hu hw]
    have hbracket : ∀ rest, w ≠ '(' :: rest := by
      rintro rest rfl
      cases hw '(' rfl
    have hread : read c (u ++ w) = (.other (c :: u), w) := by
      unfold read
      rw [if_neg (by simp [hblank]), if_neg hquote,
        if_neg (by simp [startsNumber_of_isPlain h]),
        if_neg (by simp [startsDashArrow_of_isPlain h hw]), if_pos (startsName_of_isPlain h _),
        readNamed_of_no_bracket (by rw [hreading]; exact hbracket), hreading]
    exact parted_cons_iff.2 ⟨⟨c, u, rfl, hread⟩, parted_nil _⟩

/-- An at sign and a plain name are a token in front of a break. -/
theorem parted_atName (h : Name.isPlain name = true) (hw : Breaks w) :
    Parted [.atName name] w := by
  have hinner : ∀ c ∈ name, Attribute.isInner c = true := fun c hc => Name.isInner_of_isPlain h hc
  have hstart : startsName (name ++ w) = true := by
    cases name with
    | nil => cases h
    | cons c u => exact startsName_of_isPlain h w
  have hread : read '@' (name ++ w) = (.atName name, w) := by
    have hreading : Name.read (name ++ w) = ⟨name, none, w⟩ := Name.reading_of_inner hinner hw
    unfold read
    rw [show startsNumber ('@' :: (name ++ w)) = false from rfl,
      show startsDashArrow ('@' :: (name ++ w)) = false from rfl,
      show startsName ('@' :: (name ++ w)) = false from rfl, if_neg (by decide),
      if_neg (by decide), if_neg (by decide), if_neg (by decide), if_neg (by decide),
      if_pos ⟨rfl, hstart⟩, hreading]
  exact parted_cons_iff.2 ⟨⟨'@', name, rfl, hread⟩, parted_nil _⟩

end Token

end HostSheet.Syntax
