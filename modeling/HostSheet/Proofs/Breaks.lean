import Mathlib
import HostSheet.Proofs.Respacing

set_option autoImplicit false

/-!
# Texts in front of a break

The breaks are the characters that end every closed token, and the colon.  What a reader asks of
the characters ahead of it has the same answer in front of a break as at the end of the text, and
a machine reads the text as if it stood alone, if it stops where the break begins
(`Reading.of_append`).  A name stops there unless it ends inside an escape
(`Name.of_machine_break`).
-/

namespace HostSheet.Syntax

/-- The stops and the colon. -/
def isBreak (c : Char) : Bool := isStop c || c == ':'

/-- The texts that end a token in front of them: the empty one, and those that start with a
break. -/
def Breaks (w : Text) : Prop := ∀ e, w.head? = some e → isBreak e = true

theorem breaks_nil : Breaks [] := nofun

theorem breaks_cons {e : Char} (h : isBreak e = true) (v : Text) : Breaks (e :: v) :=
  fun _ hc => Option.some.inj hc ▸ h

theorem isBreak_of_isStop {d : Char} (h : isStop d = true) : isBreak d = true := by
  simp [isBreak, h]

theorem breaks_blank {c : Char} (h : isBlank c = true) (v : Text) : Breaks (c :: v) :=
  breaks_cons (isBreak_of_isStop (isStop_of_isSeam (isSeam_of_isBlank h))) v

theorem Breaks.gap_append {g w : Text} (hw : Breaks w) (hg : IsGap g) : Breaks (g ++ w) := by
  cases g with
  | nil => exact hw
  | cons c g => exact breaks_blank (hg c List.mem_cons_self) _

theorem isBreak_cases {d : Char} (h : isBreak d = true) :
    d = ' ' ∨ d = '\t' ∨ d = '\n' ∨ d = '\x0C' ∨ d = '\r' ∨ d = ';' ∨ d = '\x7b' ∨
      d = '\x7d' ∨ d = '/' ∨ d = ':' := by
  simpa [isBreak, isStop, isSeam, isBlank, or_assoc] using h

/-- What no break does, a text of them does not start with. -/
theorem Breaks.not_head {w : Text} (hw : Breaks w) {p : Char → Bool}
    (hp : ([' ', '\t', '\n', '\x0C', '\r', ';', '\x7b', '\x7d', '/', ':'].any p) = false)
    {e : Char} (he : w.head? = some e) : p e = false := by
  simp only [List.any_cons, List.any_nil, Bool.or_eq_false_iff] at hp
  rcases isBreak_cases (hw e he) with
    rfl | rfl | rfl | rfl | rfl | rfl | rfl | rfl | rfl | rfl <;> simp only [hp]

/-- A character that is no break stands in front of the break. -/
theorem Breaks.exists_cons {w : Text} (hw : Breaks w) {a : Char} (ha : isBreak a = false)
    {s r : Text} (h : s ++ w = a :: r) : ∃ u, s = a :: u := by
  cases s with
  | nil =>
    rw [List.nil_append] at h
    have hbreak := hw a (by rw [h]; rfl)
    rw [ha] at hbreak
    cases hbreak
  | cons b s =>
    rw [List.cons_append] at h
    exact ⟨s, by rw [(List.cons.inj h).1]⟩

/-! ## Looking ahead -/

section Ahead

variable {w : Text} (hw : Breaks w)

include hw

theorem isPrefixOf_break {l : Text}
    (hl : ([' ', '\t', '\n', '\x0C', '\r', ';', '\x7b', '\x7d', '/', ':'].any l.contains) = false)
    (u : Text) : l.isPrefixOf (u ++ w) = l.isPrefixOf u := by
  cases w with
  | nil => rw [List.append_nil]
  | cons e v =>
    refine isPrefixOf_seam fun hmem => ?_
    have hnot := hw.not_head hl (e := e) rfl
    rw [List.contains_iff_mem.2 hmem] at hnot
    cases hnot

namespace Token

theorem startsWithDigit_break (u : Text) : startsWithDigit (u ++ w) = startsWithDigit u := by
  cases u with
  | nil =>
    cases w with
    | nil => rfl
    | cons e v => exact hw.not_head (p := Char.isDigit) rfl rfl
  | cons a u => rfl

theorem startsExponent_break (u : Text) : startsExponent (u ++ w) = startsExponent u := by
  cases u with
  | nil =>
    cases w with
    | nil => rfl
    | cons e v =>
      rcases isBreak_cases (hw e rfl) with
        rfl | rfl | rfl | rfl | rfl | rfl | rfl | rfl | rfl | rfl <;> rfl
  | cons a u =>
    have hnext := startsWithDigit_break hw u
    rw [List.cons_append]
    unfold startsExponent
    split <;> simp_all [startsWithDigit]

theorem startsUnsigned_break (u : Text) : startsUnsigned (u ++ w) = startsUnsigned u := by
  cases u with
  | nil =>
    cases w with
    | nil => rfl
    | cons e v =>
      rcases isBreak_cases (hw e rfl) with
        rfl | rfl | rfl | rfl | rfl | rfl | rfl | rfl | rfl | rfl <;> rfl
  | cons a u =>
    have hnext := startsWithDigit_break hw u
    rw [List.cons_append]
    unfold startsUnsigned
    split <;> simp_all [startsWithDigit]

theorem startsNumber_break (a : Char) (u : Text) :
    startsNumber (a :: (u ++ w)) = startsNumber (a :: u) := by
  have hall := startsUnsigned_break hw (a :: u)
  rw [List.cons_append] at hall
  rw [startsNumber_cons, startsNumber_cons, startsUnsigned_break hw u, hall]

end Token

theorem startsName_break {u : Text} (hu : u ≠ ['\\']) : startsName (u ++ w) = startsName u := by
  cases u with
  | nil =>
    cases w with
    | nil => rfl
    | cons e v =>
      rcases isBreak_cases (hw e rfl) with
        rfl | rfl | rfl | rfl | rfl | rfl | rfl | rfl | rfl | rfl <;> rfl
  | cons a u =>
    rw [List.cons_append]
    by_cases hbackslash : a = '\\'
    · subst hbackslash
      cases u with
      | nil => exact absurd rfl hu
      | cons b u => rfl
    by_cases hdash : a = '-'
    · subst hdash
      cases u with
      | nil =>
        cases w with
        | nil => rfl
        | cons e v =>
          rcases isBreak_cases (hw e rfl) with
            rfl | rfl | rfl | rfl | rfl | rfl | rfl | rfl | rfl | rfl <;> rfl
      | cons b u => rfl
    · unfold startsName
      split <;> simp_all

end Ahead

/-! ## Machines -/

/-- A machine reads a text in front of another as if it stood alone, if it stops between the two.
It looks behind the text only at the last character of it, and then it does not stop there. -/
theorem Reading.of_append {σ : Type} {step : Machine σ} {P : σ → Prop} {w : Text}
    (hahead : ∀ state a u, step state a (u ++ w) = step state a u ∨
      u = [] ∧ ∃ next, step state a [] = some next ∧ ¬P next)
    (hstop : ∀ state e v, P state → w = e :: v → step state e v = none)
    {state : σ} {s : Text}
    (h : (Reading.of step state s).rest = [] → P (Reading.of step state s).state) :
    Reading.of step state (s ++ w) =
      { Reading.of step state s with rest := (Reading.of step state s).rest ++ w } := by
  induction s generalizing state with
  | nil =>
    cases w with
    | nil => rfl
    | cons e v =>
      have hnone : step state e v = none := hstop state e v (h rfl) rfl
      change Reading.of step state (e :: v) = ⟨[], state, e :: v⟩
      rw [Reading.of, hnone]
  | cons a u ih =>
    rw [Reading.of] at h
    rcases hahead state a u with heq | ⟨rfl, next, hnext, hgoes⟩
    · rw [List.cons_append, Reading.of, Reading.of, heq]
      cases hs : step state a u with
      | none => rfl
      | some next =>
        rw [hs] at h
        exact congrArg (Reading.push a) (ih h)
    · rw [hnext] at h
      exact absurd (h rfl) hgoes

/-- What is taken to the end is the whole text. -/
theorem Reading.taken_of_rest_eq_nil {σ : Type} {step : Machine σ} {state : σ} {s : Text}
    (h : (Reading.of step state s).rest = []) : (Reading.of step state s).taken = s := by
  have happend := Reading.taken_append_rest step state s
  rwa [h, List.append_nil] at happend

/-! ## Escapes at the end of a text -/

/-- The escape that a text goes on with behind a character, if it does. -/
def Escape.after (state : Option Escape) (c : Char) : Option Escape :=
  match next? state c with
  | some next => next
  | none => if c = '\\' then some .opened else none

/-- Whether a text ends inside an escape, which may take more characters: behind its backslash,
behind its digits, or in the middle of the line end that closes it. -/
def endsInEscape (s : Text) : Bool := (s.foldl Escape.after none).isSome

theorem endsInEscape_eq_false_iff {s : Text} :
    endsInEscape s = false ↔ s.foldl Escape.after none = none := by
  rw [endsInEscape, Option.isSome_eq_false_iff, Option.isNone_iff_eq_none]

/-- Escapes start with a backslash. -/
theorem Escape.foldl_after_of_not_mem {s : Text} (h : '\\' ∉ s) :
    s.foldl after none = none := by
  induction s with
  | nil => rfl
  | cons c r ih =>
    rw [List.mem_cons, not_or] at h
    have hafter : after none c = none := if_neg (Ne.symm h.1)
    rw [List.foldl_cons, hafter]
    exact ih h.2

namespace Name

/-- Outside escapes a name takes the name characters, backslashes apart. -/
theorem machine_of_ne {c : Char} (hc : c ≠ '\\') (r : Text) :
    machine none c r = if isNameChar c then some none else none := by
  unfold machine
  rw [Escape.next?, Option.bind_none, Option.map_none]
  simp only [hc, false_and, if_false]

theorem machine_eq_after {state next : Option Escape} {c : Char} {r : Text}
    (h : machine state c r = some next) : next = Escape.after state c := by
  unfold machine at h
  unfold Escape.after
  cases hnext : Escape.next? state c with
  | some e =>
    rw [hnext] at h
    exact (Option.some.inj h).symm
  | none =>
    rw [hnext] at h
    dsimp only at h ⊢
    split at h
    · rename_i hchar
      have hne : c ≠ '\\' := by
        rintro rfl
        cases hchar
      rw [if_neg hne]
      exact (Option.some.inj h).symm
    · split at h
      · rename_i hbackslash
        rw [if_pos hbackslash.1]
        exact (Option.some.inj h).symm
      · cases h

/-- A name ends in the escape that its characters end in. -/
theorem state_eq_foldl (state : Option Escape) (s : Text) :
    (Reading.of machine state s).state =
      (Reading.of machine state s).taken.foldl Escape.after state := by
  induction s generalizing state with
  | nil => rfl
  | cons c r ih =>
    rw [Reading.of]
    cases hs : machine state c r with
    | none => rfl
    | some next =>
      obtain rfl := machine_eq_after hs
      exact ih _

/-- A name takes no break, unless it ends inside an escape. -/
theorem of_machine_break {state : Option Escape} {s w : Text} (hw : Breaks w)
    (h : (Reading.of machine state s).rest = [] → (Reading.of machine state s).state = none) :
    Reading.of machine state (s ++ w) =
      { Reading.of machine state s with rest := (Reading.of machine state s).rest ++ w } := by
  refine Reading.of_append (P := (· = none)) (fun state a u => ?_) ?_ h
  · cases u with
    | cons b u => exact .inl rfl
    | nil =>
      by_cases ha : a = '\\'
      · subst ha
        cases hnext : Escape.next? state '\\' with
        | some e => exact .inl (by simp only [machine, hnext])
        | none => exact .inr ⟨rfl, some .opened, by simp only [machine, hnext]; rfl, nofun⟩
      · exact .inl (by simp only [machine, ha, false_and, if_false])
  · rintro _ e v rfl rfl
    rcases isBreak_cases (hw e rfl) with
      rfl | rfl | rfl | rfl | rfl | rfl | rfl | rfl | rfl | rfl <;> rfl

end Name

end HostSheet.Syntax
