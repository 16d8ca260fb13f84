import Mathlib
import HostSheet.Proofs.Positions
import HostSheet.Proofs.Scanning

set_option autoImplicit false

/-!
# When a string is closed

A string is closed if its quote stands behind characters and escapes that a string can hold
(`Token.IsClosed`).  This is said with a grammar, which knows nothing of the machine that reads
strings; `Token.Demands` then tells for every state of the machine what it still takes, and each
step of the machine is a step in the grammar (`keepsDemands`).

The reader does not look at the state in which the machine stopped, only whether the last
character of the string is its quote.  So it also takes a string whose end is an escaped quote in
front of the end of the line or of the text (`Token.EndsEscaped`), and no other string
that is not closed (`closesString_iff`).
-/

namespace HostSheet

open Syntax

theorem Syntax.Escape.step_opened_ne_none (c : Char) : step opened c ≠ none := by
  simp only [step]
  split
  · simp
  · split <;> simp

/-- Without a digit, or with no more of them to come, the digits of an escape are complete. -/
theorem Syntax.Escape.step_digits {c : Char} {left : Nat} (hc : hexValue? c = none ∨ left = 0)
    (v : Nat) :
    step (digits v left) c =
      if c = '\r' then some (some carriage, value (digits v left))
      else if isBlank c then some (none, value (digits v left))
      else none := by
  rcases hc with hc | rfl
  · cases left <;> simp [step, hc]
  · simp [step]

namespace Syntax.Token

/-! ## The grammar of strings -/

/-- What can stand behind the digits of an escape and still belongs to it. -/
inductive IsEscapeEnd : Text → Prop
  | nothing : IsEscapeEnd []
  | blank {c : Char} (h : isBlank c = true) : IsEscapeEnd [c]
  | newline : IsEscapeEnd ['\r', '\n']

/-- What can stand behind the backslash of an escape. -/
inductive IsEscape : Text → Prop
  | char {c : Char} (h : hexValue? c = none) : IsEscape [c]
  | newline : IsEscape ['\r', '\n']
  | digits {ds e : Text} (hds : ∀ d ∈ ds, hexValue? d ≠ none) (hpos : ds ≠ [])
      (hlen : ds.length ≤ 6) (he : IsEscapeEnd e) : IsEscape (ds ++ e)

/-- What can stand between the quotes `q` of a string. -/
inductive IsInside (q : Char) : Text → Prop
  | nil : IsInside q []
  | char {c : Char} {x : Text} (hquote : c ≠ q) (hbackslash : c ≠ '\\')
      (hnewline : isNewline c = false) (h : IsInside q x) : IsInside q (c :: x)
  | escape {e x : Text} (he : IsEscape e) (h : IsInside q x) : IsInside q ('\\' :: (e ++ x))

/-- The string that is open in front of a text is closed by its own quote, which is not escaped. -/
def IsClosed (q : Char) (s : Text) : Prop := ∃ x rest, s = x ++ q :: rest ∧ IsInside q x

/-- The string that is open in front of a text ends in an escaped quote, because the line or the
text does. -/
def EndsEscaped (q : Char) (s : Text) : Prop :=
  ∃ x rest, s = x ++ '\\' :: q :: rest ∧ IsInside q x ∧
    (rest = [] ∨ startsWithNewline rest = true)

theorem IsEscapeEnd.isBlank_of_mem {e : Text} (h : IsEscapeEnd e) {c : Char} (hc : c ∈ e) :
    isBlank c = true := by
  cases h with
  | nothing => cases hc
  | blank h => rwa [List.mem_singleton.1 hc]
  | newline =>
    rcases List.mem_cons.1 hc with rfl | hc
    · rfl
    · rw [List.mem_singleton.1 hc]
      rfl

theorem IsEscape.ne_nil {e : Text} (h : IsEscape e) : e ≠ [] := by
  cases h with
  | char h => exact List.cons_ne_nil _ _
  | newline => exact List.cons_ne_nil _ _
  | digits hds hpos hlen he => exact fun h => hpos (List.append_eq_nil_iff.1 h).1

/-- The last character of an escape is a digit, a blank, or all of the escape. -/
theorem IsEscape.eq_nil_of_append {y : Text} {c : Char} (h : IsEscape (y ++ [c]))
    (hdigit : hexValue? c = none) (hblank : isBlank c = false) : y = [] := by
  generalize hz : y ++ [c] = z at h
  have hmem : c ∈ z := by simp [← hz]
  cases h with
  | char h => exact (List.append_eq_singleton_iff.1 hz).elim And.left fun h => by cases h.2
  | newline =>
    rw [IsEscapeEnd.newline.isBlank_of_mem hmem] at hblank
    cases hblank
  | digits hds hpos hlen he =>
    rcases List.mem_append.1 hmem with hmem | hmem
    · exact absurd hdigit (hds c hmem)
    · rw [he.isBlank_of_mem hmem] at hblank
      cases hblank

/-! ## The machine and the grammar -/

section

variable {q : Char}

theorem eq_of_isQuote (hq : Text.isQuote q = true) : q = '"' ∨ q = '\'' := by
  simpa [Text.isQuote] using hq

theorem hexValue?_of_isQuote (hq : Text.isQuote q = true) : hexValue? q = none := by
  rcases eq_of_isQuote hq with rfl | rfl <;> rfl

theorem isBlank_of_isQuote (hq : Text.isQuote q = true) : isBlank q = false := by
  rcases eq_of_isQuote hq with rfl | rfl <;> rfl

theorem ne_backslash_of_isQuote (hq : Text.isQuote q = true) : q ≠ '\\' := by
  rcases eq_of_isQuote hq with rfl | rfl <;> decide

theorem isBlank_of_isNewline {c : Char} (h : isNewline c = true) : isBlank c = true := by
  simp only [isNewline, isBlank, Bool.or_eq_true, beq_iff_eq] at h ⊢
  tauto

/-- Inside a string, a quote or a backslash at the end is an escaped one. -/
theorem IsInside.escaped_last (hq : Text.isQuote q = true) {x : Text} {c : Char}
    (h : IsInside q (x ++ [c])) (hc : c = q ∨ c = '\\') :
    ∃ y, x = y ++ ['\\'] ∧ IsInside q y := by
  have hclass : hexValue? c = none ∧ isBlank c = false := by
    rcases hc with rfl | rfl
    · exact ⟨hexValue?_of_isQuote hq, isBlank_of_isQuote hq⟩
    · exact ⟨rfl, rfl⟩
  generalize hz : x ++ [c] = z at h
  induction h generalizing x with
  | nil => simp at hz
  | @char a z hquote hbackslash hnewline h ih =>
    cases x with
    | nil =>
      obtain ⟨rfl, -⟩ := List.cons.inj hz
      exact (hc.elim hquote hbackslash).elim
    | cons b x =>
      obtain ⟨rfl, htail⟩ := List.cons.inj hz
      obtain ⟨y, rfl, hy⟩ := ih htail
      exact ⟨b :: y, rfl, hy.char hquote hbackslash hnewline⟩
  | @escape e z he h ih =>
    rcases List.eq_nil_or_concat z with rfl | ⟨z, a, rfl⟩
    · -- The escape is the end of the text.
      rcases List.eq_nil_or_concat e with rfl | ⟨e, a, rfl⟩
      · exact absurd rfl he.ne_nil
      · rw [List.append_nil, List.concat_eq_append, ← List.cons_append] at hz
        obtain ⟨rfl, ha⟩ := List.append_inj' hz rfl
        obtain rfl := List.singleton_inj.1 ha
        rw [List.concat_eq_append] at he
        obtain rfl := he.eq_nil_of_append hclass.1 hclass.2
        exact ⟨[], rfl, .nil⟩
    · rw [List.concat_eq_append, ← List.append_assoc, ← List.cons_append] at hz
      obtain ⟨rfl, ha⟩ := List.append_inj' hz rfl
      obtain rfl := List.singleton_inj.1 ha
      obtain ⟨y, rfl, hy⟩ := ih List.concat_eq_append.symm
      exact ⟨'\\' :: (e ++ y), by simp, hy.escape he⟩

/-- What can stand between the digits of an escape and the closing quote. -/
def IsBehindDigits (q : Char) (x : Text) : Prop :=
  ∃ e y, x = e ++ y ∧ IsEscapeEnd e ∧ IsInside q y

/-- What the machine for strings takes from a state on, up to the closing quote.  Behind digits it
takes the rest of their escape, and behind a carriage return that ended an escape the line feed
that belongs to it. -/
def Demands (q : Char) : StringState → Text → Prop
  | .body, x => IsInside q x
  | .escape .opened, x => ∃ e y, x = e ++ y ∧ IsEscape e ∧ IsInside q y
  | .escape (.digits _ left), x =>
    ∃ ds y, x = ds ++ y ∧ (∀ d ∈ ds, hexValue? d ≠ none) ∧ ds.length ≤ left ∧ IsBehindDigits q y
  | .escape .carriage, x => IsInside q x ∨ ∃ y, x = '\n' :: y ∧ IsInside q y
  | .done, _ => False

theorem isInside_cons_iff (hq : Text.isQuote q = true) {c : Char} {x : Text} :
    IsInside q (c :: x) ↔ ∃ state, stringStep q c = some state ∧ Demands q state x := by
  unfold stringStep
  by_cases hquote : c = q
  · rw [if_pos hquote]
    constructor
    · rintro (_ | ⟨h, _, _, _⟩ | _)
      · exact absurd hquote h
      · exact absurd hquote.symm (ne_backslash_of_isQuote hq)
    · rintro ⟨state, ⟨⟩, h⟩
      exact h.elim
  rw [if_neg hquote]
  by_cases hnewline : isNewline c = true
  · rw [if_pos hnewline]
    constructor
    · rintro (_ | ⟨_, _, h, _⟩ | _)
      · rw [hnewline] at h
        cases h
      · cases hnewline
    · rintro ⟨state, ⟨⟩, _⟩
  rw [if_neg hnewline]
  by_cases hbackslash : c = '\\'
  · subst hbackslash
    rw [if_pos rfl]
    constructor
    · rintro (_ | ⟨_, h, _, _⟩ | ⟨he, h⟩)
      · exact absurd rfl h
      · exact ⟨_, rfl, _, _, rfl, he, h⟩
    · rintro ⟨state, ⟨⟩, e, y, rfl, he, h⟩
      exact h.escape he
  · rw [if_neg hbackslash]
    constructor
    · rintro (_ | ⟨_, _, _, h⟩ | _)
      · exact ⟨_, rfl, h⟩
      · exact absurd rfl hbackslash
    · rintro ⟨state, ⟨⟩, h⟩
      exact h.char hquote hbackslash (by simpa using hnewline)

theorem IsInside.tail {c : Char} {x : Text} (h : IsInside q (c :: x)) (hc : c ≠ '\\') :
    IsInside q x := by
  cases h with
  | char hquote hbackslash hnewline h => exact h
  | escape he h => exact absurd rfl hc

theorem IsInside.isNewline_eq_false {c : Char} {x : Text} (h : IsInside q (c :: x)) :
    isNewline c = false := by
  cases h with
  | char hquote hbackslash hnewline h => exact hnewline
  | escape he h => rfl

theorem isBehindDigits_carriage_iff {x : Text} :
    IsBehindDigits q ('\r' :: x) ↔ Demands q (.escape .carriage) x := by
  constructor
  · rintro ⟨e, y, hy, he, h⟩
    cases he with
    | nothing =>
      obtain rfl : '\r' :: x = y := hy
      cases h.isNewline_eq_false
    | blank hb =>
      obtain ⟨-, rfl⟩ := List.cons.inj hy
      exact .inl h
    | newline =>
      obtain ⟨-, rfl⟩ := List.cons.inj hy
      exact .inr ⟨y, rfl, h⟩
  · rintro (h | ⟨y, rfl, h⟩)
    · exact ⟨['\r'], x, rfl, .blank rfl, h⟩
    · exact ⟨['\r', '\n'], y, rfl, .newline, h⟩

theorem isBehindDigits_blank_iff {c : Char} {x : Text} (hb : isBlank c = true) (hc : c ≠ '\r') :
    IsBehindDigits q (c :: x) ↔ IsInside q x := by
  constructor
  · rintro ⟨e, y, hy, he, h⟩
    cases he with
    | nothing =>
      obtain rfl : c :: x = y := hy
      exact h.tail fun hbackslash => by rw [hbackslash] at hb; cases hb
    | blank hb =>
      obtain ⟨-, rfl⟩ := List.cons.inj hy
      exact h
    | newline => exact absurd (List.cons.inj hy).1 hc
  · exact fun h => ⟨[c], x, rfl, .blank hb, h⟩

theorem isBehindDigits_cons_iff {c : Char} {x : Text} (hb : isBlank c = false) :
    IsBehindDigits q (c :: x) ↔ IsInside q (c :: x) := by
  constructor
  · rintro ⟨e, y, hy, he, h⟩
    cases e with
    | nil => rwa [hy]
    | cons a e =>
      obtain ⟨rfl, -⟩ := List.cons.inj hy
      rw [he.isBlank_of_mem List.mem_cons_self] at hb
      cases hb
  · exact fun h => ⟨[], c :: x, rfl, .nothing, h⟩

theorem IsInside.isBehindDigits {x : Text} (h : IsInside q x) : IsBehindDigits q x :=
  ⟨[], x, rfl, .nothing, h⟩

theorem hexValue?_of_isBlank {c : Char} (h : isBlank c = true) : hexValue? c = none := by
  simp only [isBlank, Bool.or_eq_true, beq_iff_eq, or_assoc] at h
  rcases h with rfl | rfl | rfl | rfl | rfl <;> rfl

theorem demands_opened_digit_iff {c : Char} {x : Text} (hc : hexValue? c ≠ none) (v : Nat) :
    Demands q (.escape .opened) (c :: x) ↔ Demands q (.escape (.digits v 5)) x := by
  constructor
  · rintro ⟨e, y, hy, he, h⟩
    cases he with
    | char hnone =>
      obtain ⟨rfl, -⟩ := List.cons.inj hy
      exact absurd hnone hc
    | newline =>
      obtain ⟨rfl, -⟩ := List.cons.inj hy
      exact absurd rfl hc
    | @digits ds e hds hpos hlen he =>
      obtain ⟨d, ds, rfl⟩ := List.exists_cons_of_ne_nil hpos
      obtain ⟨rfl, rfl⟩ := List.cons.inj hy
      exact ⟨ds, e ++ y, List.append_assoc ds e y, fun d hd => hds d (List.mem_cons_of_mem _ hd),
        Nat.le_of_succ_le_succ hlen, e, y, rfl, he, h⟩
  · rintro ⟨ds, -, rfl, hds, hlen, e, y, rfl, he, h⟩
    exact ⟨c :: ds ++ e, y, by simp, .digits (List.forall_mem_cons.2 ⟨hc, hds⟩)
      (List.cons_ne_nil c ds) (Nat.succ_le_succ hlen) he, h⟩

theorem demands_opened_carriage_iff {x : Text} :
    Demands q (.escape .opened) ('\r' :: x) ↔ Demands q (.escape .carriage) x := by
  constructor
  · rintro ⟨e, y, hy, he, h⟩
    cases he with
    | char hc =>
      obtain ⟨-, rfl⟩ := List.cons.inj hy
      exact .inl h
    | newline =>
      obtain ⟨-, rfl⟩ := List.cons.inj hy
      exact .inr ⟨y, rfl, h⟩
    | digits hds hpos hlen he =>
      obtain ⟨d, ds, rfl⟩ := List.exists_cons_of_ne_nil hpos
      obtain ⟨rfl, -⟩ := List.cons.inj hy
      exact absurd rfl (hds '\r' List.mem_cons_self)
  · rintro (h | ⟨y, rfl, h⟩)
    · exact ⟨['\r'], x, rfl, .char rfl, h⟩
    · exact ⟨['\r', '\n'], y, rfl, .newline, h⟩

theorem demands_opened_char_iff {c : Char} {x : Text} (hdigit : hexValue? c = none)
    (hc : c ≠ '\r') : Demands q (.escape .opened) (c :: x) ↔ IsInside q x := by
  constructor
  · rintro ⟨e, y, hy, he, h⟩
    cases he with
    | char =>
      obtain ⟨-, rfl⟩ := List.cons.inj hy
      exact h
    | newline => exact absurd (List.cons.inj hy).1 hc
    | digits hds hpos hlen he =>
      obtain ⟨d, ds, rfl⟩ := List.exists_cons_of_ne_nil hpos
      obtain ⟨rfl, -⟩ := List.cons.inj hy
      exact absurd hdigit (hds c List.mem_cons_self)
  · exact fun h => ⟨[c], x, rfl, .char hdigit, h⟩

theorem demands_digits_digit_iff {c : Char} {x : Text} (hc : hexValue? c ≠ none) (v w left : Nat) :
    Demands q (.escape (.digits v (left + 1))) (c :: x) ↔
      Demands q (.escape (.digits w left)) x := by
  constructor
  · rintro ⟨ds, y, hy, hds, hlen, h⟩
    cases ds with
    | nil =>
      obtain rfl : c :: x = y := hy
      have hb : isBlank c = false := by
        by_contra hb
        exact hc (hexValue?_of_isBlank (by simpa using hb))
      have hinside := (isBehindDigits_cons_iff hb).1 h
      have htail := hinside.tail fun hbackslash => hc (by rw [hbackslash]; rfl)
      exact ⟨[], x, rfl, nofun, Nat.zero_le left, htail.isBehindDigits⟩
    | cons d ds =>
      obtain ⟨rfl, rfl⟩ := List.cons.inj hy
      exact ⟨ds, y, rfl, fun d hd => hds d (List.mem_cons_of_mem _ hd),
        Nat.le_of_succ_le_succ hlen, h⟩
  · rintro ⟨ds, y, rfl, hds, hlen, h⟩
    exact ⟨c :: ds, y, rfl, List.forall_mem_cons.2 ⟨hc, hds⟩, Nat.succ_le_succ hlen, h⟩

/-- Without a digit in front, or with no more of them to come, the digits are complete. -/
theorem demands_digits_iff {c : Char} {x : Text} {left : Nat}
    (hc : hexValue? c = none ∨ left = 0) (v : Nat) :
    Demands q (.escape (.digits v left)) (c :: x) ↔ IsBehindDigits q (c :: x) := by
  constructor
  · rintro ⟨ds, y, hy, hds, hlen, h⟩
    cases ds with
    | nil => rwa [hy]
    | cons d ds =>
      obtain ⟨rfl, -⟩ := List.cons.inj hy
      rcases hc with hc | rfl
      · exact absurd hc (hds c List.mem_cons_self)
      · exact absurd hlen (Nat.not_succ_le_zero _)
  · exact fun h => ⟨[], c :: x, rfl, nofun, Nat.zero_le left, h⟩

theorem demands_carriage_newline_iff {x : Text} :
    Demands q (.escape .carriage) ('\n' :: x) ↔ IsInside q x := by
  constructor
  · rintro (h | ⟨y, hy, h⟩)
    · cases h.isNewline_eq_false
    · obtain ⟨-, rfl⟩ := List.cons.inj hy
      exact h
  · exact fun h => .inr ⟨x, rfl, h⟩

theorem demands_carriage_iff {c : Char} {x : Text} (hc : c ≠ '\n') :
    Demands q (.escape .carriage) (c :: x) ↔ IsInside q (c :: x) := by
  constructor
  · rintro (h | ⟨y, hy, -⟩)
    · exact h
    · exact absurd (List.cons.inj hy).1 hc
  · exact .inl

/-- One step of the machine is a step in the grammar: what the state demands is what the state
after the first character demands of the rest. -/
def KeepsDemands (q : Char) (state : StringState) (c : Char) : Prop :=
  ∀ x r, Demands q state (c :: x) ↔
    ∃ next, stringMachine q state c r = some next ∧ Demands q next x

theorem KeepsDemands.of_step {state : StringState} {c : Char} (next : StringState)
    (hstep : ∀ r, stringMachine q state c r = some next)
    (h : ∀ x, Demands q state (c :: x) ↔ Demands q next x) : KeepsDemands q state c := by
  intro x r
  rw [h, hstep]
  simp

/-- An escape that is complete leaves the character to the string. -/
theorem KeepsDemands.of_outside (hq : Text.isQuote q = true) {state : StringState} {c : Char}
    (hstep : ∀ r, stringMachine q state c r = stringStep q c)
    (h : ∀ x, Demands q state (c :: x) ↔ IsInside q (c :: x)) : KeepsDemands q state c := by
  intro x r
  rw [h, hstep]
  exact isInside_cons_iff hq

theorem keepsDemands_opened (c : Char) : KeepsDemands q (.escape .opened) c := by
  cases hdigit : hexValue? c with
  | some v =>
    refine .of_step (.escape (.digits v 5)) (fun r => ?_) fun x => ?_
    · simp [stringMachine, Escape.next?, Escape.step, hdigit]
    · exact demands_opened_digit_iff (by simp [hdigit]) v
  | none =>
    by_cases hc : c = '\r'
    · subst hc
      exact .of_step (.escape .carriage) (fun _ => rfl) fun _ => demands_opened_carriage_iff
    · refine .of_step .body (fun r => ?_) fun x => demands_opened_char_iff hdigit hc
      simp [stringMachine, Escape.next?, Escape.step, hdigit, hc]

theorem keepsDemands_digits (hq : Text.isQuote q = true) (v left : Nat) (c : Char) :
    KeepsDemands q (.escape (.digits v left)) c := by
  by_cases hmore : hexValue? c ≠ none ∧ left ≠ 0
  · obtain ⟨d, hdigit⟩ := Option.ne_none_iff_exists'.1 hmore.1
    obtain ⟨left, rfl⟩ := Nat.exists_eq_succ_of_ne_zero hmore.2
    refine .of_step (.escape (.digits (16 * v + d) left)) (fun r => ?_) fun x => ?_
    · simp [stringMachine, Escape.next?, Escape.step, hdigit]
    · exact demands_digits_digit_iff hmore.1 v _ left
  have hlast : hexValue? c = none ∨ left = 0 := by tauto
  have hstep := Escape.step_digits hlast v
  by_cases hc : c = '\r'
  · subst hc
    refine .of_step (.escape .carriage) (fun r => ?_) fun x => ?_
    · simp [stringMachine, Escape.next?, hstep]
    · exact (demands_digits_iff hlast v).trans isBehindDigits_carriage_iff
  cases hb : isBlank c with
  | true =>
    refine .of_step .body (fun r => ?_) fun x => ?_
    · simp [stringMachine, Escape.next?, hstep, hc, hb]
    · exact (demands_digits_iff hlast v).trans (isBehindDigits_blank_iff hb hc)
  | false =>
    refine .of_outside hq (fun r => ?_) fun x => ?_
    · simp [stringMachine, Escape.next?, hstep, hc, hb]
    · exact (demands_digits_iff hlast v).trans (isBehindDigits_cons_iff hb)

theorem keepsDemands_carriage (hq : Text.isQuote q = true) (c : Char) :
    KeepsDemands q (.escape .carriage) c := by
  by_cases hc : c = '\n'
  · subst hc
    exact .of_step .body (fun _ => rfl) fun _ => demands_carriage_newline_iff
  · refine .of_outside hq (fun r => ?_) fun x => demands_carriage_iff hc
    simp [stringMachine, Escape.next?, Escape.step, hc]

/-- Every step of the machine is a step in the grammar. -/
theorem keepsDemands (hq : Text.isQuote q = true) (state : StringState) (c : Char) :
    KeepsDemands q state c := by
  cases state with
  | body => exact .of_outside hq (fun _ => rfl) fun _ => Iff.rfl
  | done => exact fun x r => ⟨fun h => h.elim, by rintro ⟨_, ⟨⟩, _⟩⟩
  | escape e =>
    cases e with
    | opened => exact keepsDemands_opened c
    | digits v left => exact keepsDemands_digits hq v left c
    | carriage => exact keepsDemands_carriage hq c

/-! ## Runs of the machine -/

/-- What was taken is what the first state demands and the last one does not. -/
theorem demands_taken_append_iff (hq : Text.isQuote q = true) (state : StringState) (s x : Text) :
    Demands q state ((Reading.of (stringMachine q) state s).taken ++ x) ↔
      Demands q (Reading.of (stringMachine q) state s).state x := by
  induction s generalizing state with
  | nil => rfl
  | cons c r ih =>
    rw [Reading.of]
    cases hstep : stringMachine q state c r with
    | none => rfl
    | some next =>
      change Demands q state (c :: ((Reading.of (stringMachine q) next r).taken ++ x)) ↔ _
      rw [keepsDemands hq state c _ r, hstep]
      simp only [Option.some.injEq, exists_eq_left']
      exact ih next

/-- What a state demands is taken, whatever follows it. -/
theorem exists_of_demands (hq : Text.isQuote q = true) {state : StringState} {x : Text}
    (h : Demands q state x) :
    ∃ next, Demands q next [] ∧ ∀ rest, Reading.of (stringMachine q) state (x ++ rest) =
      ⟨x ++ (Reading.of (stringMachine q) next rest).taken,
        (Reading.of (stringMachine q) next rest).state,
        (Reading.of (stringMachine q) next rest).rest⟩ := by
  induction x generalizing state with
  | nil => exact ⟨state, h, fun _ => rfl⟩
  | cons c x ih =>
    obtain ⟨next, hstep, hnext⟩ := (keepsDemands hq state c x []).1 h
    obtain ⟨last, hlast, hread⟩ := ih hnext
    refine ⟨last, hlast, fun rest => ?_⟩
    have hstep' : stringMachine q state c (x ++ rest) = some next := hstep
    rw [List.cons_append, Reading.of, hstep']
    dsimp only
    rw [hread]
    rfl

theorem demands_nil_iff {state : StringState} :
    Demands q state [] ↔ state ≠ .escape .opened ∧ state ≠ .done := by
  cases state with
  | body => exact ⟨fun _ => by decide, fun _ => .nil⟩
  | done => exact ⟨fun h => h.elim, fun h => absurd rfl h.2⟩
  | escape e =>
    cases e with
    | opened =>
      constructor
      · rintro ⟨e, y, hy, he, -⟩
        exact absurd (List.append_eq_nil_iff.1 hy.symm).1 he.ne_nil
      · exact fun h => absurd rfl h.1
    | digits v left =>
      exact ⟨fun _ => ⟨by simp, by simp⟩,
        fun _ => ⟨[], [], rfl, nofun, Nat.zero_le left, IsInside.nil.isBehindDigits⟩⟩
    | carriage => exact ⟨fun _ => by decide, fun _ => .inl .nil⟩

/-- The machine stops in front of the end of a line only. -/
theorem isNewline_of_stringMachine_eq_none {state : StringState} {c : Char} {r : Text}
    (hstate : state ≠ .done) (h : stringMachine q state c r = none) : isNewline c = true := by
  have houtside : stringStep q c = none → isNewline c = true := by
    intro h
    unfold stringStep at h
    split at h
    · cases h
    split at h
    · assumption
    split at h <;> cases h
  unfold stringMachine at h
  split at h
  · exact absurd rfl hstate
  · exact houtside h
  · split at h
    · cases h
    · cases h
    · exact houtside h

theorem startsWithNewline_rest {state : StringState} {s : Text}
    (h : (Reading.of (stringMachine q) state s).state ≠ .done) :
    (Reading.of (stringMachine q) state s).rest = [] ∨
      startsWithNewline (Reading.of (stringMachine q) state s).rest = true := by
  induction s generalizing state with
  | nil => exact .inl rfl
  | cons c r ih =>
    rw [Reading.of] at h ⊢
    cases hstep : stringMachine q state c r with
    | none =>
      rw [hstep] at h
      exact .inr (isNewline_of_stringMachine_eq_none h hstep)
    | some next =>
      rw [hstep] at h
      exact ih h

/-- Where the string can end, a character that is no digit and no blank starts something new. -/
theorem stringMachine_eq_stringStep {state : StringState} (h : Demands q state []) {c : Char}
    (hdigit : hexValue? c = none) (hblank : isBlank c = false) (r : Text) :
    stringMachine q state c r = stringStep q c := by
  cases state with
  | body => rfl
  | done => exact h.elim
  | escape e =>
    have hstep : e.step c = none := by
      cases e with
      | opened => exact absurd rfl (demands_nil_iff.1 h).1
      | digits v left =>
        have hcarriage : c ≠ '\r' := by rintro rfl; cases hblank
        rw [Escape.step_digits (.inl hdigit), if_neg hcarriage, if_neg (by simp [hblank])]
      | carriage => exact if_neg (by rintro rfl; cases hblank)
    simp [stringMachine, Escape.next?, hstep]

/-- The quote that the machine takes last is not escaped. -/
theorem stringMachine_eq_done_iff (hq : Text.isQuote q = true) {state : StringState} {c : Char}
    {r : Text} :
    stringMachine q state c r = some .done ↔ c = q ∧ Demands q state [] := by
  constructor
  · intro h
    have houtside : stringStep q c = some .done → c = q := by
      intro h
      unfold stringStep at h
      split at h
      · assumption
      split at h
      · cases h
      split at h <;> cases h
    rw [demands_nil_iff]
    cases state with
    | body => exact ⟨houtside h, by decide⟩
    | done => cases h
    | escape e =>
      unfold stringMachine at h
      dsimp only at h
      split at h
      · cases h
      · cases h
      · rename_i hcomplete
        refine ⟨houtside h, ?_, nofun⟩
        rintro ⟨⟩
        exact Escape.step_opened_ne_none c (by simpa [Escape.next?] using hcomplete)
  · rintro ⟨rfl, h⟩
    rw [stringMachine_eq_stringStep h (hexValue?_of_isQuote hq) (isBlank_of_isQuote hq)]
    exact if_pos rfl

/-- A reading that comes to the closing quote has taken what its first state demands and the
quote. -/
theorem taken_of_state_eq_done (hq : Text.isQuote q = true) {state : StringState} {s : Text}
    (hstate : state ≠ .done) (h : (Reading.of (stringMachine q) state s).state = .done) :
    ∃ x, (Reading.of (stringMachine q) state s).taken = x ++ [q] ∧ Demands q state x := by
  induction s generalizing state with
  | nil => exact absurd h hstate
  | cons c r ih =>
    rw [Reading.of] at h ⊢
    cases hstep : stringMachine q state c r with
    | none =>
      rw [hstep] at h
      exact absurd h hstate
    | some next =>
      rw [hstep] at h
      by_cases hnext : next = .done
      · subst hnext
        obtain ⟨rfl, hnil⟩ := (stringMachine_eq_done_iff hq).1 hstep
        refine ⟨[], ?_, hnil⟩
        cases r <;> rfl
      · obtain ⟨x, hx, hdemands⟩ := ih hnext h
        exact ⟨c :: x, congrArg (c :: ·) hx,
          (keepsDemands hq state c x r).2 ⟨next, hstep, hdemands⟩⟩

/-- The machine comes to the closing quote if and only if there is one. -/
theorem isClosed_iff_state (hq : Text.isQuote q = true) (s : Text) :
    IsClosed q s ↔ (Reading.of (stringMachine q) .body s).state = .done := by
  constructor
  · rintro ⟨x, rest, rfl, hx⟩
    have hdemands : Demands q .body x := hx
    obtain ⟨last, hlast, hread⟩ := exists_of_demands hq hdemands
    have hstep := (stringMachine_eq_done_iff hq (r := rest)).2 ⟨rfl, hlast⟩
    rw [hread, Reading.of, hstep]
    cases rest <;> rfl
  · intro h
    obtain ⟨x, hx, hinside⟩ := taken_of_state_eq_done hq (by decide) h
    have happend := Reading.taken_append_rest (stringMachine q) .body s
    rw [hx, List.append_assoc] at happend
    exact ⟨x, _, happend.symm, hinside⟩

/-- An escaped quote at the end of the line or of the text stops the machine behind it. -/
theorem reading_of_escaped (hq : Text.isQuote q = true) {x rest : Text} (hx : IsInside q x)
    (hrest : rest = [] ∨ startsWithNewline rest = true) :
    Reading.of (stringMachine q) .body (x ++ '\\' :: q :: rest) =
      ⟨x ++ ['\\', q], .body, rest⟩ := by
  have hdemands : Demands q .body x := hx
  obtain ⟨last, hlast, hread⟩ := exists_of_demands hq hdemands
  have hbackslash : ∀ r, stringMachine q last '\\' r = some (.escape .opened) := by
    intro r
    rw [stringMachine_eq_stringStep hlast rfl rfl]
    simp [stringStep, (ne_backslash_of_isQuote hq).symm, show isNewline '\\' = false from rfl]
  have hquote : ∀ r, stringMachine q (.escape .opened) q r = some .body := by
    intro r
    have hcarriage : q ≠ '\r' := by rintro rfl; cases isBlank_of_isQuote hq
    simp [stringMachine, Escape.next?, Escape.step, hexValue?_of_isQuote hq, hcarriage]
  have hstop : Reading.of (stringMachine q) .body rest = ⟨[], .body, rest⟩ := by
    cases rest with
    | nil => rfl
    | cons c r =>
      have hnewline : isNewline c = true := hrest.resolve_left (List.cons_ne_nil c r)
      have hne : c ≠ q := by
        rintro rfl
        exact Bool.false_ne_true
          ((isBlank_of_isQuote hq).symm.trans (isBlank_of_isNewline hnewline))
      have hstep : stringMachine q .body c r = none := by
        simp [stringMachine, stringStep, hne, hnewline]
      rw [Reading.of, hstep]
  have hend : Reading.of (stringMachine q) last ('\\' :: q :: rest) =
      ⟨['\\', q], .body, rest⟩ := by
    rw [Reading.of, hbackslash]
    dsimp only
    rw [Reading.of, hquote]
    dsimp only
    rw [hstop]
    rfl
  rw [hread, hend]

/-- No string is both closed and cut off behind an escaped quote. -/
theorem EndsEscaped.not_isClosed (hq : Text.isQuote q = true) {s : Text} (h : EndsEscaped q s) :
    ¬IsClosed q s := by
  obtain ⟨x, rest, rfl, hx, hrest⟩ := h
  rw [isClosed_iff_state hq, reading_of_escaped hq hx hrest]
  simp

theorem closesString_cons_iff {w : Text} :
    closesString (q :: w) = true ↔ ∃ x, w = x ++ [q] := by
  rcases List.eq_nil_or_concat w with rfl | ⟨x, c, rfl⟩
  · simp [closesString]
  · rw [List.concat_eq_append]
    have hlast : (q :: (x ++ [c])).getLast? = some c := List.getLast?_concat (l := q :: x)
    simp [closesString, hlast]

/-- The strings that the reader takes as closed. -/
theorem closesString_iff (hq : Text.isQuote q = true) (s : Text) :
    closesString (q :: (Reading.of (stringMachine q) .body s).taken) = true ↔
      IsClosed q s ∨ EndsEscaped q s := by
  rw [closesString_cons_iff]
  constructor
  · rintro ⟨x, hx⟩
    by_cases hdone : (Reading.of (stringMachine q) .body s).state = .done
    · exact .inl ((isClosed_iff_state hq s).2 hdone)
    have hdemands := demands_taken_append_iff hq .body s
    rw [hx] at hdemands
    by_cases hopened : (Reading.of (stringMachine q) .body s).state = .escape .opened
    · -- Then the last character is a backslash.
      have hinside : IsInside q (x ++ [q] ++ ['\\']) := by
        refine (hdemands ['\\']).2 ?_
        rw [hopened]
        exact ⟨['\\'], [], rfl, .char rfl, .nil⟩
      obtain ⟨y, hy, -⟩ := hinside.escaped_last hq (.inr rfl)
      exact absurd (List.singleton_inj.1 (List.append_inj' hy rfl).2) (ne_backslash_of_isQuote hq)
    · have hinside : IsInside q (x ++ [q]) := by
        have h := (hdemands []).2 (demands_nil_iff.2 ⟨hopened, hdone⟩)
        rwa [List.append_nil] at h
      obtain ⟨y, rfl, hy⟩ := hinside.escaped_last hq (.inl rfl)
      have happend := Reading.taken_append_rest (stringMachine q) .body s
      rw [hx, List.append_assoc, List.append_assoc] at happend
      exact .inr ⟨y, _, happend.symm, hy, startsWithNewline_rest hdone⟩
  · rintro (h | ⟨x, rest, rfl, hx, hrest⟩)
    · obtain ⟨x, hx, -⟩ := taken_of_state_eq_done hq (by decide) ((isClosed_iff_state hq s).1 h)
      exact ⟨x, hx⟩
    · rw [reading_of_escaped hq hx hrest]
      exact ⟨x ++ ['\\'], by simp⟩

end

/-! ## Strings in a stylesheet -/

/-- A string is read by the machine for the quote it starts with. -/
theorem read_quoted {c : Char} {r raw : Text} (h : (read c r).1 = .quoted raw) :
    Text.isQuote c = true ∧ raw = c :: (Reading.of (stringMachine c) .body r).taken := by
  obtain ⟨q, r', rfl, hq⟩ := IsRead.quoted ⟨c, r, h⟩
  obtain ⟨t, ht, -⟩ := splits_read c r
  rw [h] at ht
  obtain ⟨rfl, -⟩ := List.cons.inj ht
  have hquote : Text.isQuote q = true := by simpa [Text.isQuote] using hq
  refine ⟨hquote, ?_⟩
  unfold read at h
  rw [if_neg (by simp [isBlank_of_isQuote hquote]), if_pos hq] at h
  exact (Token.quoted.inj h).symm

theorem exists_of_ofText_eq_quoted {s raw : Text} {ts us : List Token}
    (h : ofText s = ts ++ .quoted raw :: us) :
    ∃ q t, s = textOf ts ++ q :: t ∧ Text.isQuote q = true ∧
      raw = q :: (Reading.of (stringMachine q) .body t).taken := by
  have hparted := parted_ofText s
  rw [h] at hparted
  obtain ⟨⟨q, u, hu, hread⟩, -⟩ := parted_cons_iff.1 (parted_append_iff.1 hparted).2
  obtain ⟨hq, hraw⟩ := read_quoted (congrArg Prod.fst hread)
  refine ⟨q, u ++ (textOf us ++ []), ?_, hq, hraw⟩
  rw [← textOf_ofText s, h, textOf_append, textOf_cons, hu, List.append_nil, List.cons_append]

end Syntax.Token

namespace Reader

/-- Outside brackets a string is taken if it ends with its quote, and else it is the fault. -/
theorem step_quoted {r : Reader} (hb : r.statement.brackets = []) (raw : Text) :
    (closesString raw = true → ∃ r', r.step (.quoted raw) = .ok r') ∧
      (closesString raw = false →
        r.step (.quoted raw) = .error ⟨.defect .unclosedString, r.offset⟩) := by
  have hextend : r.extend r.statement (.quoted raw) =
      if closesString raw then .ok { r with draft := some (r.statement.add (.quoted raw)) }
      else r.fault .unclosedString := by
    unfold extend
    rw [if_neg (not_not_intro hb)]
  have hstep : r.step (.quoted raw) = (r.extend r.statement (.quoted raw)).bind fun next =>
      .ok { next with offset := r.offset + raw.length } := by
    unfold step
    cases hd : r.draft with
    | some d =>
      rw [statement_of_draft hd]
      rfl
    | none =>
      rw [statement_of_draft_eq_none hd]
      rfl
  rw [hstep, hextend]
  constructor
  · intro hc
    rw [if_pos hc]
    exact ⟨_, rfl⟩
  · intro hc
    rw [if_neg (by simp [hc])]
    rfl

end Reader

namespace Sheet

/-- A token that is refused where it stands is what is wrong with the text. -/
theorem parse_of_step_eq_error {s : Text} {ts us : List Token} {t : Token} {r : Reader}
    {f : Fault} (hsplit : Token.ofText s = ts ++ t :: us) (hr : Reader.run {} ts = .ok r)
    (hf : r.step t = .error f) : parse s = .error (f.locate s) := by
  have hrun : Reader.run {} (Token.ofText s) = .error f := by
    rw [hsplit, Reader.run_append, hr]
    change r.run (t :: us) = .error f
    rw [Reader.run_cons, hf]
    rfl
  unfold parse read
  rw [hrun]
  rfl

/-- Outside brackets the reader goes past a string if and only if the string is closed, or ends in
an escaped quote because its line or the text does.  Otherwise the error is an unclosed string at
the opening quote. -/
theorem steps_over_string_iff {s raw : Text} {ts us : List Token} {r : Reader}
    (hsplit : Token.ofText s = ts ++ .quoted raw :: us) (hr : Reader.run {} ts = .ok r)
    (hb : r.statement.brackets = []) :
    ∃ q t, s = Token.textOf ts ++ q :: t ∧ Text.isQuote q = true ∧
      ((∃ r', r.step (.quoted raw) = .ok r') ↔ Token.IsClosed q t ∨ Token.EndsEscaped q t) ∧
      (¬(Token.IsClosed q t ∨ Token.EndsEscaped q t) →
        parse s = .error ⟨.unclosedString, Position.start.after (Token.textOf ts)⟩) := by
  obtain ⟨q, t, hs, hq, hraw⟩ := Token.exists_of_ofText_eq_quoted hsplit
  have hcloses := Token.closesString_iff hq t
  rw [← hraw] at hcloses
  obtain ⟨htaken, hrefused⟩ := Reader.step_quoted hb raw
  have hread : ∀ u ∈ ts, u.IsRead := fun u hu =>
    Token.isRead_of_mem_ofText (s := s) (by rw [hsplit]; exact List.mem_append_left _ hu)
  have hoffset : r.offset = (Token.textOf ts).length :=
    (Reader.located_start.run hread hr).offset
  refine ⟨q, t, hs, hq, ⟨?_, fun h => htaken (hcloses.2 h)⟩, fun h => ?_⟩
  · rintro ⟨r', hr'⟩
    by_contra h
    rw [hrefused (by simpa using mt hcloses.1 h)] at hr'
    cases hr'
  · have hplace : Position.ofOffset s r.offset = Position.start.after (Token.textOf ts) := by
      rw [Position.ofOffset, hoffset, hs, List.take_left]
    rw [parse_of_step_eq_error hsplit hr (hrefused (by simpa using mt hcloses.1 h)),
      Fault.locate, hplace]
    rfl

/-- The text ends behind an escaped quote and another character. -/
theorem steps_over_string_iff_open :
    Token.ofText "a:\"b\\\"c".toList =
        [.other ['a'], .colon] ++ [.quoted "\"b\\\"c".toList] ∧
      ∃ r, Reader.run {} [.other ['a'], .colon] = .ok r ∧ r.statement.brackets = [] ∧
        (¬∃ r', r.step (.quoted "\"b\\\"c".toList) = .ok r') ∧
        parse "a:\"b\\\"c".toList = .error ⟨.unclosedString, ⟨1, 3⟩⟩ := by
  have hsplit : Token.ofText "a:\"b\\\"c".toList =
      [.other ['a'], .colon] ++ [.quoted "\"b\\\"c".toList] := by decide +kernel
  obtain ⟨q, t, hs, hq, hiff, herror⟩ := steps_over_string_iff hsplit rfl rfl
  obtain ⟨rfl, rfl⟩ : '"' = q ∧ "b\\\"c".toList = t :=
    List.cons.inj (List.append_cancel_left
      (show Token.textOf [.other ['a'], .colon] ++ '"' :: "b\\\"c".toList = _ from hs))
  have hopen := (Token.closesString_iff hq "b\\\"c".toList).not.1 (by decide)
  exact ⟨hsplit, _, rfl, rfl, hiff.not.2 hopen, herror hopen⟩

/-- A string of nothing but an escaped quote is not closed, and the reader goes past it. -/
theorem steps_over_open_string :
    Token.ofText "a:\"\\\"".toList =
        [.other ['a'], .colon] ++ [.quoted "\"\\\"".toList] ∧
      (∃ r, Reader.run {} [.other ['a'], .colon] = .ok r ∧ r.statement.brackets = [] ∧
        ∃ r', r.step (.quoted "\"\\\"".toList) = .ok r') ∧
      (∃ sheet, parse "a:\"\\\"".toList = .ok sheet) ∧
      ¬Token.IsClosed '"' "\\\"".toList := by
  refine ⟨by decide +kernel, ⟨_, rfl, rfl, _, rfl⟩, ?_, ?_⟩
  · exact ⟨⟨[.declaration ⟨[], ['a'], [':'], "\"\\\"".toList, []⟩], ⟨[], false⟩⟩,
      by decide +kernel⟩
  · have hends : Token.EndsEscaped '"' "\\\"".toList := ⟨[], [], rfl, .nil, .inl rfl⟩
    exact hends.not_isClosed rfl

end Sheet

end HostSheet
