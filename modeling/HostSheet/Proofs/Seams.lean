import Mathlib
import HostSheet.Proofs.Grammar
import HostSheet.Proofs.Matches

set_option autoImplicit false

/-!
# Tokens and what stands behind them

Where a token ends may depend on the characters behind it, but never on those behind a
seam: a blank, a semicolon or a brace that the token did not take.  So tokens in front of a
seam stay as they are whatever replaces the text behind it (`Token.Parted.replace`), and so do
those in front of the slash of a comment (`Token.Parted.replace_stop`).  The one exception is a
round bracket with nothing but blanks in front of the seam, as in `url( `:
what it opens depends on the next character that is no blank.
-/

namespace HostSheet.Syntax

/-- The characters that end every token which has not taken them. -/
def isSeam (c : Char) : Bool := isBlank c || c == ';' || c == '\x7b' || c == '\x7d'

theorem isSeam_of_isBlank {d : Char} (h : isBlank d = true) : isSeam d = true := by
  simp [isSeam, h]

/-- The characters that end every token in front of them which is closed: the seams, and the
slash that starts a comment. -/
def isStop (c : Char) : Bool := isSeam c || c == '/'

theorem isStop_of_isSeam {d : Char} (h : isSeam d = true) : isStop d = true := by
  simp [isStop, h]

theorem isStop_cases {d : Char} (h : isStop d = true) :
    d = ' ' ∨ d = '\t' ∨ d = '\n' ∨ d = '\x0C' ∨ d = '\r' ∨ d = ';' ∨ d = '\x7b' ∨
      d = '\x7d' ∨ d = '/' := by
  simpa [isStop, isSeam, isBlank, or_assoc] using h

/-! ## Looking ahead -/

theorem startsWithNewline_seam {u v : Text} {d : Char} (v' : Text) :
    startsWithNewline (u ++ d :: v) = startsWithNewline (u ++ d :: v') := by
  cases u <;> rfl

namespace Token

theorem startsWithDigit_seam {u v : Text} {d : Char} (v' : Text) :
    startsWithDigit (u ++ d :: v) = startsWithDigit (u ++ d :: v') := by
  cases u <;> rfl

theorem startsExponent_seam {u v : Text} {d : Char} (hd : isStop d = true) (v' : Text) :
    startsExponent (u ++ d :: v) = startsExponent (u ++ d :: v') := by
  cases u with
  | nil =>
    rcases isStop_cases hd with rfl | rfl | rfl | rfl | rfl | rfl | rfl | rfl | rfl <;> rfl
  | cons a u =>
    have hnext := startsWithDigit_seam (u := u) (v := v) (d := d) v'
    simp only [List.cons_append]
    unfold startsExponent
    split <;> simp_all [startsWithDigit]

/-- Whether a number without a sign starts here. -/
def startsUnsigned : Text → Bool
  | '.' :: r => startsWithDigit r
  | r => startsWithDigit r

theorem startsNumber_cons (a : Char) (r : Text) :
    startsNumber (a :: r) =
      if a = '+' ∨ a = '-' then startsUnsigned r else startsUnsigned (a :: r) := by
  unfold startsNumber
  split <;> simp_all [startsUnsigned]

theorem startsUnsigned_seam {u v : Text} {d : Char} (hd : isStop d = true) (v' : Text) :
    startsUnsigned (u ++ d :: v) = startsUnsigned (u ++ d :: v') := by
  cases u with
  | nil =>
    rcases isStop_cases hd with rfl | rfl | rfl | rfl | rfl | rfl | rfl | rfl | rfl <;> rfl
  | cons a u =>
    have hnext := startsWithDigit_seam (u := u) (v := v) (d := d) v'
    simp only [List.cons_append]
    unfold startsUnsigned
    split <;> simp_all [startsWithDigit]

theorem startsNumber_seam {u v : Text} {d : Char} (hd : isStop d = true) (v' : Text) :
    startsNumber (u ++ d :: v) = startsNumber (u ++ d :: v') := by
  cases u with
  | nil =>
    rcases isStop_cases hd with rfl | rfl | rfl | rfl | rfl | rfl | rfl | rfl | rfl <;> rfl
  | cons a u =>
    have hsigned := startsUnsigned_seam (u := u) (v := v) hd v'
    have hall := startsUnsigned_seam (u := a :: u) (v := v) hd v'
    rw [List.cons_append, List.cons_append] at hall
    rw [List.cons_append, List.cons_append, startsNumber_cons, startsNumber_cons, hsigned, hall]

end Token

theorem startsName_seam {u v : Text} {d : Char} (hd : isStop d = true) (v' : Text) :
    startsName (u ++ d :: v) = startsName (u ++ d :: v') := by
  have hother : ∀ {a : Char} (r : Text), a ≠ '\\' → a ≠ '-' →
      startsName (a :: r) = isNameStart a := by
    intro a r hbackslash hdash
    unfold startsName
    split <;> simp_all
  cases u with
  | nil =>
    rcases isStop_cases hd with rfl | rfl | rfl | rfl | rfl | rfl | rfl | rfl | rfl <;> rfl
  | cons a u =>
    by_cases hbackslash : a = '\\'
    · subst hbackslash
      exact congrArg (!·) (startsWithNewline_seam v')
    · by_cases hdash : a = '-'
      · subst hdash
        cases u <;> rfl
      · rw [List.cons_append, List.cons_append, hother _ hbackslash hdash,
          hother _ hbackslash hdash]

/-- A fixed text without the seam stands in front of it or not at all. -/
theorem isPrefixOf_seam {l u v : Text} {d : Char} (h : d ∉ l) :
    l.isPrefixOf (u ++ d :: v) = l.isPrefixOf u := by
  induction l generalizing u with
  | nil => simp
  | cons a l ih =>
    rw [List.mem_cons, not_or] at h
    cases u with
    | nil => simp [List.isPrefixOf, Ne.symm h.1]
    | cons b u => simp [List.isPrefixOf, ih h.2]

/-! ## Machines -/

/-- A machine that does not look past a seam. -/
structure Machine.StopsAtSeams {σ : Type} (step : Machine σ) : Prop where
  before : ∀ {state : σ} {c d : Char} {u v : Text} (v' : Text), isStop d = true →
    step state c (u ++ d :: v) = step state c (u ++ d :: v')
  seam : ∀ {state : σ} {d : Char} {v : Text} (v' : Text), isStop d = true →
    step state d v = step state d v'

/-- What such a machine reads in front of a seam depends on nothing behind it. -/
theorem Reading.of_seam {σ : Type} {step : Machine σ} (hstep : step.StopsAtSeams)
    {state : σ} {u v w : Text} {d : Char} (hd : isStop d = true)
    (h : (Reading.of step state (u ++ d :: v)).rest = w ++ d :: v) (v' : Text) :
    Reading.of step state (u ++ d :: v') =
      { Reading.of step state (u ++ d :: v) with rest := w ++ d :: v' } := by
  induction u generalizing state with
  | nil =>
    rw [List.nil_append] at h ⊢
    rw [Reading.of] at h ⊢
    rw [hstep.seam v' hd] at h
    cases hs : step state d v' with
    | some next =>
      rw [hs] at h
      have hlen := congrArg List.length h
      have hle := Reading.length_rest_le step next v
      simp only [Reading.push, List.length_append, List.length_cons] at hlen
      omega
    | none =>
      rw [hs] at h
      have hw : w = [] := by
        have hlen := congrArg List.length h
        simp only [List.length_append, List.length_cons] at hlen
        exact List.length_eq_zero_iff.1 (by omega)
      rw [hw, List.nil_append, Reading.of, hstep.seam v' hd, hs]
      rfl
  | cons c u ih =>
    rw [List.cons_append, Reading.of] at h
    rw [List.cons_append, List.cons_append, Reading.of, Reading.of, ← hstep.before v' hd]
    cases hs : step state c (u ++ d :: v) with
    | some next =>
      rw [hs] at h
      exact congrArg (Reading.push c) (ih h)
    | none =>
      rw [hs] at h
      have hall : (c :: u) ++ d :: v = w ++ d :: v := h
      have hw : c :: u = w := List.append_cancel_right hall
      rw [← hw]
      rfl

theorem Name.machine_stopsAtSeams : Name.machine.StopsAtSeams where
  before := by
    intro state c d u v v' hd
    unfold machine
    rw [startsWithNewline_seam v']
  seam := by
    intro state d v v' hd
    have hne : d ≠ '\\' := by
      rintro rfl
      cases hd
    unfold machine
    simp only [hne, false_and, if_false]

namespace Token

theorem stringMachine_stopsAtSeams (quote : Char) : (stringMachine quote).StopsAtSeams where
  before := fun _ _ => rfl
  seam := fun _ _ => rfl

theorem addressMachine_stopsAtSeams : addressMachine.StopsAtSeams where
  before := by
    intro state c d u v v' hd
    have hstep : addressStep c (u ++ d :: v) = addressStep c (u ++ d :: v') := by
      unfold addressStep
      rw [startsWithNewline_seam v']
    unfold addressMachine
    rw [hstep]
  seam := by
    intro state d v v' hd
    have hne : d ≠ '\\' := by
      rintro rfl
      cases hd
    have hstep : addressStep d v = addressStep d v' := by
      unfold addressStep
      simp only [hne, if_false]
    unfold addressMachine
    rw [hstep]

theorem numberMachine_stopsAtSeams : numberMachine.StopsAtSeams where
  before := by
    intro state c d u v v' hd
    unfold numberMachine
    rw [startsWithDigit_seam v', startsExponent_seam hd v']
  seam := by
    intro state d v v' hd
    rcases isStop_cases hd with rfl | rfl | rfl | rfl | rfl | rfl | rfl | rfl | rfl <;>
      cases state <;> rfl

/-! ## Tokens -/

/-- A unit that is no percent sign is a name, or there is none. -/
theorem readUnit_of_ne_percent {s : Text} (h : ∀ r, s ≠ '%' :: r) :
    readUnit s = if startsName s then ((Name.read s).taken, (Name.read s).rest) else ([], s) := by
  unfold readUnit
  split
  · exact absurd rfl (h _)
  · rfl

theorem readUnit_seam {u v w t : Text} {d : Char} (hd : isStop d = true)
    (h : readUnit (u ++ d :: v) = (t, w ++ d :: v)) (v' : Text) :
    readUnit (u ++ d :: v') = (t, w ++ d :: v') := by
  have hname : ∀ u : Text, (∀ x r, u ++ d :: x ≠ '%' :: r) →
      readUnit (u ++ d :: v) = (t, w ++ d :: v) → readUnit (u ++ d :: v') = (t, w ++ d :: v') := by
    intro u hu h
    rw [readUnit_of_ne_percent (hu v)] at h
    rw [readUnit_of_ne_percent (hu v'), ← startsName_seam hd v']
    split at h
    · rename_i hs
      obtain ⟨htaken, hrest⟩ := Prod.mk.inj h
      rw [if_pos hs, Name.read, Reading.of_seam Name.machine_stopsAtSeams hd hrest v']
      exact congrArg (·, _) htaken
    · rename_i hs
      obtain ⟨rfl, hrest⟩ := Prod.mk.inj h
      rw [if_neg hs, List.append_cancel_right hrest]
  cases u with
  | nil =>
    refine hname [] ?_ h
    rintro x r hx
    obtain ⟨rfl, _⟩ := List.cons.inj hx
    cases hd
  | cons a u =>
    by_cases ha : a = '%'
    · subst ha
      obtain ⟨rfl, hrest⟩ := Prod.mk.inj h
      rw [← List.append_cancel_right hrest]
      rfl
    · refine hname (a :: u) ?_ h
      rintro x r hx
      exact ha (List.cons.inj hx).1

theorem splitComment_seam {u v w body : Text} {d : Char} (hd : isStop d = true)
    (h : splitComment (u ++ d :: v) = (body, some (w ++ d :: v))) (v' : Text) :
    splitComment (u ++ d :: v') = (body, some (w ++ d :: v')) := by
  have hplain : ∀ (c : Char) (r : Text), (∀ r', c = '*' → r ≠ '/' :: r') →
      splitComment (c :: r) = (c :: (splitComment r).1, (splitComment r).2) :=
    fun c r hr => splitComment.eq_3 c r hr
  induction u generalizing body with
  | nil =>
    -- The seam would have to be part of the comment.
    exfalso
    have hne : d ≠ '*' := by
      rintro rfl
      cases hd
    rw [List.nil_append, hplain d v fun _ hc => absurd hc hne] at h
    obtain ⟨_, hrest⟩ := Prod.mk.inj h
    have happ := splitComment_append v
    cases hs : splitComment v with
    | mk b r =>
      rw [hs] at happ hrest
      dsimp only at hrest
      subst hrest
      have hlen := congrArg List.length happ
      simp only [List.length_append, List.length_cons] at hlen
      omega
  | cons c u ih =>
    by_cases hend : c = '*' ∧ ∃ r, u ++ d :: v = '/' :: r
    · obtain ⟨rfl, r, hr⟩ := hend
      cases u with
      | nil =>
        -- The comment would take the slash, which is left.
        obtain ⟨rfl, rfl⟩ := List.cons.inj hr
        have hlen := congrArg List.length (Option.some.inj (Prod.mk.inj h).2)
        simp only [List.length_append, List.length_cons] at hlen
        omega
      | cons a u =>
        obtain ⟨rfl, rfl⟩ := List.cons.inj hr
        obtain ⟨rfl, hrest⟩ := Prod.mk.inj h
        rw [← List.append_cancel_right (Option.some.inj hrest)]
        rfl
    · have hslash : ∀ (x : Text) (r' : Text), c = '*' → u ++ d :: x ≠ '/' :: r' := by
        rintro x r' rfl hx
        cases u with
        | nil =>
          obtain ⟨rfl, _⟩ := List.cons.inj hx
          exact hend ⟨rfl, _, rfl⟩
        | cons a u =>
          obtain ⟨rfl, _⟩ := List.cons.inj hx
          exact hend ⟨rfl, _, rfl⟩
      rw [List.cons_append, hplain c _ (hslash v)] at h
      obtain ⟨rfl, hrest⟩ := Prod.mk.inj h
      rw [List.cons_append, hplain c _ (hslash v'), ih (Prod.ext rfl hrest)]

theorem readComment_seam {u v w : Text} {d : Char} {t : Token} (hd : isStop d = true)
    (h : readComment (u ++ d :: v) = (t, w ++ d :: v)) (v' : Text) :
    readComment (u ++ d :: v') = (t, w ++ d :: v') := by
  unfold readComment at h
  cases hs : splitComment (u ++ d :: v) with
  | mk body r =>
    rw [hs] at h
    cases r with
    | none =>
      obtain ⟨_, hnil⟩ := Prod.mk.inj h
      cases w <;> cases hnil
    | some r =>
      obtain ⟨rfl, rfl⟩ := Prod.mk.inj h
      unfold readComment
      rw [splitComment_seam hd hs v']

/-- What stands behind the first character of a sign that is longer than it. -/
def signTail (c : Char) : Text :=
  if c = '<' then ['!', '-', '-'] else if c = '-' then ['-', '>'] else ['=']

/-- Whether a sign may be longer than its first character. -/
def isSignStart (c : Char) : Bool :=
  c == '<' || c == '-' || c == '~' || c == '|' || c == '^' || c == '$' || c == '*'

theorem readSign_eq (c : Char) (r : Text) :
    readSign c r =
      if isSignStart c && (signTail c).isPrefixOf r then
        (.other (c :: signTail c), r.drop (signTail c).length)
      else (.other [c], r) := by
  unfold readSign
  split
  · rfl
  · rfl
  · rfl
  · rfl
  · rfl
  · rfl
  · rfl
  · rename_i h₁ h₂ h₃ h₄ h₅ h₆ h₇
    rw [if_neg]
    intro h
    rw [Bool.and_eq_true, List.isPrefixOf_iff_prefix] at h
    obtain ⟨hstart, x, rfl⟩ := h
    simp only [isSignStart, Bool.or_eq_true, beq_iff_eq] at hstart
    rcases hstart with (((((rfl | rfl) | rfl) | rfl) | rfl) | rfl) | rfl
    · exact h₁ _ rfl rfl
    · exact h₂ _ rfl rfl
    · exact h₃ _ rfl rfl
    · exact h₄ _ rfl rfl
    · exact h₅ _ rfl rfl
    · exact h₆ _ rfl rfl
    · exact h₇ _ rfl rfl

theorem readSign_seam {c d : Char} {u v w : Text} {t : Token} (hd : isStop d = true)
    (h : readSign c (u ++ d :: v) = (t, w ++ d :: v)) (v' : Text) :
    readSign c (u ++ d :: v') = (t, w ++ d :: v') := by
  have hmem : d ∉ signTail c := by
    have : ∀ l : Text, l = ['!', '-', '-'] ∨ l = ['-', '>'] ∨ l = ['='] → d ∉ l := by
      rintro l (rfl | rfl | rfl) <;>
        rcases isStop_cases hd with
      rfl | rfl | rfl | rfl | rfl | rfl | rfl | rfl | rfl <;> decide
    refine this _ ?_
    unfold signTail
    split
    · exact .inl rfl
    · split
      · exact .inr (.inl rfl)
      · exact .inr (.inr rfl)
  rw [readSign_eq, isPrefixOf_seam hmem] at h
  rw [readSign_eq, isPrefixOf_seam hmem]
  by_cases hsign : (isSignStart c && (signTail c).isPrefixOf u) = true
  · rw [if_pos hsign] at h ⊢
    obtain ⟨rfl, hrest⟩ := Prod.mk.inj h
    rw [Bool.and_eq_true, List.isPrefixOf_iff_prefix] at hsign
    obtain ⟨_, x, rfl⟩ := hsign
    rw [List.append_assoc, List.drop_left] at hrest ⊢
    rw [List.append_cancel_right hrest]
  · rw [if_neg hsign] at h ⊢
    obtain ⟨rfl, hrest⟩ := Prod.mk.inj h
    rw [List.append_cancel_right hrest]

theorem readMark_seam {c d : Char} {u v w : Text} {t : Token} (hd : isStop d = true)
    (h : readMark c (u ++ d :: v) = (t, w ++ d :: v)) (v' : Text) :
    readMark c (u ++ d :: v') = (t, w ++ d :: v') := by
  by_cases hcomment : c = '/' ∧ ∃ r, u = '*' :: r
  · obtain ⟨rfl, r, rfl⟩ := hcomment
    exact readComment_seam (u := r) hd h v'
  · have hstar : ∀ (x r : Text), c = '/' → u ++ d :: x ≠ '*' :: r := by
      rintro x r rfl hx
      cases u with
      | nil =>
        obtain ⟨rfl, _⟩ := List.cons.inj hx
        cases hd
      | cons a u =>
        obtain ⟨rfl, _⟩ := List.cons.inj hx
        exact hcomment ⟨rfl, _, rfl⟩
    rw [readMark.eq_2 c _ (hstar v)] at h
    rw [readMark.eq_2 c _ (hstar v')]
    cases hm : ofMark? c with
    | some t' =>
      rw [hm] at h
      obtain ⟨rfl, hrest⟩ := Prod.mk.inj h
      rw [List.append_cancel_right hrest]
    | none =>
      rw [hm] at h
      exact readSign_seam hd h v'

/-- Whether an argument starts with a quote is told in front of a seam, unless there is
nothing but blanks. -/
theorem startsQuoted_seam {u v : Text} {d : Char}
    (h : ¬(IsGap u ∧ isBlank d = true)) (v' : Text) :
    startsQuoted (u ++ d :: v) = startsQuoted (u ++ d :: v') := by
  induction u with
  | nil =>
    have hd : isBlank d = false := by
      by_contra hd
      exact h ⟨isGap_nil, by simpa using hd⟩
    simp [startsQuoted, hd]
  | cons a u ih =>
    rw [List.cons_append, List.cons_append, startsQuoted, startsQuoted]
    by_cases ha : isBlank a = true
    · rw [if_pos ha, if_pos ha]
      refine ih fun ⟨hgap, hd⟩ => h ⟨?_, hd⟩
      intro c hc
      rcases List.mem_cons.1 hc with rfl | hc
      · exact ha
      · exact hgap c hc
    · rw [if_neg ha, if_neg ha]

/-- Blanks at the start of an address belong to it. -/
theorem rest_address_of_isGap {u : Text} (h : IsGap u) (r : Text) :
    (Reading.of addressMachine .lead (u ++ r)).rest =
      (Reading.of addressMachine .lead r).rest := by
  induction u with
  | nil => rfl
  | cons a u ih =>
    have hstep : addressMachine .lead a (u ++ r) = some .lead := by
      unfold addressMachine
      rw [if_pos (h a List.mem_cons_self)]
    rw [List.cons_append, Reading.of, hstep]
    exact ih fun c hc => h c (List.mem_cons_of_mem _ hc)

/-- A token that does not open a round bracket with nothing but blanks up to the seam. -/
def EndsBefore (t : Token) (w : Text) (d : Char) : Prop :=
  ∀ name, t = .opener name .round → ¬(IsGap w ∧ isBlank d = true)

theorem readArgument_seam {name u v w : Text} {d : Char} {t : Token} (hd : isStop d = true)
    (h : readArgument name (u ++ d :: v) = (t, w ++ d :: v)) (hopen : t.EndsBefore w d)
    (v' : Text) : readArgument name (u ++ d :: v') = (t, w ++ d :: v') := by
  unfold readArgument at h ⊢
  by_cases hurl : Name.spells ['u', 'r', 'l'] name = true
  · by_cases hgap : IsGap u ∧ isBlank d = true
    · exfalso
      cases hquoted : startsQuoted (u ++ d :: v) with
      | true =>
        rw [if_neg (by simp [hquoted])] at h
        obtain ⟨rfl, hrest⟩ := Prod.mk.inj h
        rw [← List.append_cancel_right hrest] at hopen
        exact hopen name rfl hgap
      | false =>
        rw [if_pos ⟨hurl, by simp [hquoted]⟩] at h
        obtain ⟨_, hrest⟩ := Prod.mk.inj h
        have hblanks : IsGap (u ++ [d]) := by
          refine hgap.1.append ?_
          intro c hc
          obtain rfl := List.mem_singleton.1 hc
          exact hgap.2
        have hlong := rest_address_of_isGap hblanks v
        rw [List.append_assoc, List.singleton_append, hrest] at hlong
        have hlen := congrArg List.length hlong
        have hle := Reading.length_rest_le addressMachine .lead v
        simp only [List.length_append, List.length_cons] at hlen
        omega
    · rw [← startsQuoted_seam hgap v']
      by_cases haddress :
          Name.spells ['u', 'r', 'l'] name = true ∧ (!startsQuoted (u ++ d :: v)) = true
      · rw [if_pos haddress] at h ⊢
        obtain ⟨rfl, hrest⟩ := Prod.mk.inj h
        rw [Reading.of_seam addressMachine_stopsAtSeams hd hrest v']
      · rw [if_neg haddress] at h ⊢
        obtain ⟨rfl, hrest⟩ := Prod.mk.inj h
        rw [List.append_cancel_right hrest]
  · rw [if_neg fun hc => hurl hc.1] at h ⊢
    obtain ⟨rfl, hrest⟩ := Prod.mk.inj h
    rw [List.append_cancel_right hrest]

theorem length_readArgument_le (name r : Text) : (readArgument name r).2.length ≤ r.length := by
  unfold readArgument
  split
  · exact Reading.length_rest_le addressMachine .lead r
  · exact le_rfl

theorem readNamed_of_bracket {c : Char} {r rest : Text}
    (h : (Name.readAfter c r).rest = '(' :: rest) :
    readNamed c r = readArgument (c :: (Name.readAfter c r).taken) rest := by
  unfold readNamed
  dsimp only
  rw [h]
  rfl

theorem readNamed_of_no_bracket {c : Char} {r : Text}
    (h : ∀ rest, (Name.readAfter c r).rest ≠ '(' :: rest) :
    readNamed c r = (.other (c :: (Name.readAfter c r).taken), (Name.readAfter c r).rest) := by
  unfold readNamed
  dsimp only
  split
  · rename_i rest hrest
    exact absurd hrest (h rest)
  · rfl

theorem readNamed_seam {c d : Char} {u v w : Text} {t : Token} (hd : isStop d = true)
    (h : readNamed c (u ++ d :: v) = (t, w ++ d :: v)) (hopen : t.EndsBefore w d)
    (v' : Text) : readNamed c (u ++ d :: v') = (t, w ++ d :: v') := by
  -- Whatever the name is followed by, the name itself ends in front of the seam.
  have hname : ∀ x, (Name.readAfter c (u ++ d :: v)).rest = x ++ d :: v →
      Name.readAfter c (u ++ d :: v') =
        { Name.readAfter c (u ++ d :: v) with rest := x ++ d :: v' } :=
    fun x hx => Reading.of_seam Name.machine_stopsAtSeams hd hx v'
  have happ : u ++ d :: v = (Name.readAfter c (u ++ d :: v)).taken ++
      (Name.readAfter c (u ++ d :: v)).rest := (Reading.taken_append_rest _ _ _).symm
  by_cases hbracket : ∃ rest, (Name.readAfter c (u ++ d :: v)).rest = '(' :: rest
  · obtain ⟨rest, hrest⟩ := hbracket
    rw [readNamed_of_bracket hrest] at h
    have hlen : (d :: v).length ≤ rest.length := by
      have := length_readArgument_le (c :: (Name.readAfter c (u ++ d :: v)).taken) rest
      rw [h, List.length_append] at this
      omega
    rw [hrest] at happ
    obtain ⟨x, rfl, _⟩ := Text.Pattern.suffix_of_append_eq
      (happ.trans (List.append_assoc _ ['('] _).symm) hlen
    have hread := hname ('(' :: x) hrest
    have hnext : (Name.readAfter c (u ++ d :: v')).rest = '(' :: (x ++ d :: v') := by
      rw [hread]
      rfl
    rw [readNamed_of_bracket hnext, hread]
    exact readArgument_seam hd h hopen v'
  · have hnone : ∀ rest, (Name.readAfter c (u ++ d :: v)).rest ≠ '(' :: rest :=
      fun rest hrest => hbracket ⟨rest, hrest⟩
    rw [readNamed_of_no_bracket hnone] at h
    obtain ⟨rfl, hrest⟩ := Prod.mk.inj h
    have hread := hname w hrest
    have hnone' : ∀ rest, (Name.readAfter c (u ++ d :: v')).rest ≠ '(' :: rest := by
      intro rest hr
      rw [hread] at hr
      cases w with
      | nil =>
        obtain ⟨rfl, _⟩ := List.cons.inj hr
        cases hd
      | cons a w =>
        obtain ⟨rfl, _⟩ := List.cons.inj hr
        exact hnone _ hrest
    rw [readNamed_of_no_bracket hnone', hread]

theorem readNumber_seam {c d : Char} {u v w number unit : Text} (hd : isStop d = true)
    (htaken : (Reading.of numberMachine (.ofFirst c) (u ++ d :: v)).taken = number)
    (hunit : readUnit (Reading.of numberMachine (.ofFirst c) (u ++ d :: v)).rest =
      (unit, w ++ d :: v)) (v' : Text) :
    (Reading.of numberMachine (.ofFirst c) (u ++ d :: v')).taken = number ∧
      readUnit (Reading.of numberMachine (.ofFirst c) (u ++ d :: v')).rest =
        (unit, w ++ d :: v') := by
  have happ := readUnit_append (Reading.of numberMachine (.ofFirst c) (u ++ d :: v)).rest
  rw [hunit, ← List.append_assoc] at happ
  rw [← happ] at hunit
  rw [Reading.of_seam numberMachine_stopsAtSeams hd happ.symm v']
  exact ⟨htaken, readUnit_seam hd hunit v'⟩

/-- A token that ends in front of a seam stays as it is, whatever follows the seam. -/
theorem read_seam {c d : Char} {u v w : Text} {t : Token} (hd : isStop d = true)
    (h : read c (u ++ d :: v) = (t, w ++ d :: v)) (hopen : t.EndsBefore w d) (v' : Text) :
    read c (u ++ d :: v') = (t, w ++ d :: v') := by
  have hnumber : startsNumber (c :: (u ++ d :: v)) = startsNumber (c :: (u ++ d :: v')) :=
    startsNumber_seam (u := c :: u) hd v'
  have harrow : startsDashArrow (c :: (u ++ d :: v)) = startsDashArrow (c :: (u ++ d :: v')) := by
    have hmem : d ∉ ['-', '-', '>'] := by
      rcases isStop_cases hd with
      rfl | rfl | rfl | rfl | rfl | rfl | rfl | rfl | rfl <;> decide
    exact (isPrefixOf_seam (u := c :: u) hmem).trans (isPrefixOf_seam (u := c :: u) hmem).symm
  have hname : startsName (c :: (u ++ d :: v)) = startsName (c :: (u ++ d :: v')) :=
    startsName_seam (u := c :: u) hd v'
  have hat : startsName (u ++ d :: v) = startsName (u ++ d :: v') := startsName_seam hd v'
  unfold read at h ⊢
  rw [← hnumber, ← harrow, ← hname, ← hat]
  split at h
  · rename_i hblank
    obtain ⟨rfl, hrest⟩ := Prod.mk.inj h
    rw [if_pos hblank, List.append_cancel_right hrest]
  rename_i hblank
  rw [if_neg hblank]
  split at h
  · rename_i hquote
    obtain ⟨rfl, hrest⟩ := Prod.mk.inj h
    rw [if_pos hquote]
    dsimp only
    rw [Reading.of_seam (stringMachine_stopsAtSeams c) hd hrest v']
  rename_i hquote
  rw [if_neg hquote]
  split at h
  · rename_i hdigits
    rw [if_pos hdigits]
    obtain ⟨rfl, hrest⟩ := Prod.mk.inj h
    obtain ⟨htaken, hunit⟩ := readNumber_seam hd rfl (Prod.ext rfl hrest) v'
    dsimp only
    rw [htaken, hunit]
  rename_i hdigits
  rw [if_neg hdigits]
  split at h
  · rename_i hdash
    rw [if_pos hdash]
    exact readSign_seam hd h v'
  rename_i hdash
  rw [if_neg hdash]
  split at h
  · rename_i hnamed
    rw [if_pos hnamed]
    exact readNamed_seam hd h hopen v'
  rename_i hnamed
  rw [if_neg hnamed]
  split at h
  · rename_i hatName
    obtain ⟨rfl, hrest⟩ := Prod.mk.inj h
    rw [if_pos hatName, Name.read, Reading.of_seam Name.machine_stopsAtSeams hd hrest v']
    rfl
  rename_i hatName
  rw [if_neg hatName]
  split at h
  · rename_i hhash
    obtain ⟨rfl, hrest⟩ := Prod.mk.inj h
    rw [if_pos hhash, Name.read, Reading.of_seam Name.machine_stopsAtSeams hd hrest v']
    rfl
  · rename_i hhash
    rw [if_neg hhash]
    exact readMark_seam hd h v'

/-! ## Tokens in a row -/

theorem ofText_of_read {c : Char} {r rest : Text} {t : Token} (h : read c r = (t, rest)) :
    ofText (c :: r) = t :: ofText rest := by
  rw [ofText, h]

/-- In front of `w` the text of `us` falls into just these tokens. -/
def Parted (us : List Token) (w : Text) : Prop := ofText (textOf us ++ w) = us ++ ofText w

theorem parted_nil (w : Text) : Parted [] w := rfl

theorem parted_cons_iff {t : Token} {us : List Token} {w : Text} :
    Parted (t :: us) w ↔ (∃ c u, t.text = c :: u ∧
      read c (u ++ (textOf us ++ w)) = (t, textOf us ++ w)) ∧ Parted us w := by
  constructor
  · intro h
    have hread : t.IsRead := isRead_of_mem_ofText (s := textOf (t :: us) ++ w) (by rw [h]; simp)
    obtain ⟨c, u, hcu⟩ := List.exists_cons_of_ne_nil hread.text_ne_nil
    rw [Parted, textOf_cons, hcu, List.append_assoc, List.cons_append, ofText] at h
    obtain ⟨hfst, hrest⟩ := List.cons.inj h
    obtain ⟨u', hu', hsnd⟩ := splits_read c (u ++ (textOf us ++ w))
    rw [hfst, hcu] at hu'
    obtain rfl := (List.cons.inj hu').2
    have hleft : (read c (u ++ (textOf us ++ w))).2 = textOf us ++ w :=
      List.append_cancel_left hsnd
    rw [hleft] at hrest
    exact ⟨⟨c, u, hcu, Prod.ext hfst hleft⟩, hrest⟩
  · rintro ⟨⟨c, u, hcu, hread⟩, h⟩
    rw [Parted, textOf_cons, hcu, List.append_assoc, List.cons_append, ofText_of_read hread, h]
    rfl

theorem parted_append_iff {us vs : List Token} {w : Text} :
    Parted (us ++ vs) w ↔ Parted us (textOf vs ++ w) ∧ Parted vs w := by
  induction us with
  | nil => exact (and_iff_right (parted_nil _)).symm
  | cons u us ih =>
    rw [List.cons_append, parted_cons_iff, parted_cons_iff, ih, textOf_append,
      List.append_assoc, and_assoc]

/-- At the end of a text, tokens are what their characters fall into. -/
theorem Parted.ofText_textOf {us : List Token} (h : Parted us []) : ofText (textOf us) = us := by
  rw [Parted, List.append_nil, ofText, List.append_nil] at h
  exact h

theorem Parted.tail {us ts : List Token} {t : Token} {w : Text}
    (h : Parted (us ++ t :: ts) w) : Parted ts w :=
  (parted_cons_iff.1 (parted_append_iff.1 h).2).2

/-- The tokens of a statement between two gaps, and what stands behind them. -/
theorem Parted.between {before gap w : Text} {us ts : List Token}
    (h : Parted (ofGap before ++ us ++ ofGap gap ++ ts) w) :
    Parted us (gap ++ (textOf ts ++ w)) ∧ Parted ts w := by
  obtain ⟨hfront, hts⟩ := parted_append_iff.1 h
  have hus := (parted_append_iff.1 (parted_append_iff.1 hfront).1).2
  rw [textOf_ofGap] at hus
  exact ⟨hus, hts⟩

theorem textOf_between (before gap : Text) (us ts : List Token) :
    textOf (ofGap before ++ us ++ ofGap gap ++ ts) =
      before ++ (textOf us ++ (gap ++ textOf ts)) := by
  simp

theorem parted_ofText (s : Text) : Parted (ofText s) [] := by
  rw [Parted, textOf_ofText, List.append_nil, ofText, List.append_nil]

theorem Parted.isRead {us : List Token} {w : Text} (h : Parted us w) {t : Token} (ht : t ∈ us) :
    t.IsRead := by
  have hmem : t ∈ ofText (textOf us ++ w) := by
    rw [h]
    exact List.mem_append_left _ ht
  exact isRead_of_mem_ofText hmem

/-- No round bracket is left open with nothing but blanks behind it. -/
def Shut (us : List Token) : Prop :=
  ∀ us₁ name us₂, us = us₁ ++ .opener name .round :: us₂ → ¬IsGap (textOf us₂)

theorem Shut.tail {t : Token} {us : List Token} (h : Shut (t :: us)) : Shut us := by
  rintro us₁ name us₂ rfl
  exact h (t :: us₁) name us₂ rfl

/-- Tokens in front of a seam or a slash stay as they are, whatever follows it. -/
theorem Parted.replace_stop {us : List Token} {d : Char} {v : Text} (hd : isStop d = true)
    (hus : Shut us) (h : Parted us (d :: v)) (v' : Text) : Parted us (d :: v') := by
  induction us with
  | nil => exact parted_nil _
  | cons t us ih =>
    obtain ⟨⟨c, u, hcu, hread⟩, hrest⟩ := parted_cons_iff.1 h
    have hopen : t.EndsBefore (textOf us) d := by
      rintro name rfl ⟨hgap, _⟩
      exact hus [] name us rfl hgap
    rw [← List.append_assoc] at hread
    have hread' := read_seam hd hread hopen v'
    rw [List.append_assoc] at hread'
    exact parted_cons_iff.2 ⟨⟨c, u, hcu, hread'⟩, ih hus.tail hrest⟩

/-- Tokens in front of a seam stay as they are, whatever follows the seam. -/
theorem Parted.replace {us : List Token} {d : Char} {v : Text} (hd : isSeam d = true)
    (hus : Shut us) (h : Parted us (d :: v)) (v' : Text) : Parted us (d :: v') :=
  h.replace_stop (isStop_of_isSeam hd) hus v'

/-! ## Tokens that end by themselves -/

theorem ofText_blank {c : Char} (h : isBlank c = true) (r : Text) :
    ofText (c :: r) = .blank c :: ofText r := by
  refine ofText_of_read ?_
  unfold read
  rw [if_pos h]

theorem ofText_semicolon (r : Text) : ofText (';' :: r) = .semicolon :: ofText r :=
  ofText_of_read rfl

theorem ofText_opener_curly (r : Text) :
    ofText ('\x7b' :: r) = .opener [] .curly :: ofText r :=
  ofText_of_read rfl

theorem ofText_closer_curly (r : Text) : ofText ('\x7d' :: r) = .closer .curly :: ofText r :=
  ofText_of_read rfl

/-- A gap falls into its characters. -/
theorem ofText_gap_append {g : Text} (h : IsLoose g) (r : Text) :
    ofText (g ++ r) = ofGap g ++ ofText r := by
  induction g with
  | nil => rfl
  | cons c g ih =>
    have hrest := ih fun a ha => h a (List.mem_cons_of_mem _ ha)
    have hcons : ofGap (c :: g) = (if c = ';' then semicolon else blank c) :: ofGap g := rfl
    rw [List.cons_append, hcons, List.cons_append, ← hrest]
    rcases h c List.mem_cons_self with hc | rfl
    · have hne : c ≠ ';' := by
        rintro rfl
        cases hc
      rw [if_neg hne, ofText_blank hc]
    · exact ofText_semicolon _

theorem parted_ofGap {g : Text} (h : IsLoose g) (w : Text) : Parted (ofGap g) w := by
  rw [Parted, textOf_ofGap, ofText_gap_append h]

theorem splitComment_replace {body r : Text}
    (h : splitComment (body ++ '*' :: '/' :: r) = (body, some r)) (r' : Text) :
    splitComment (body ++ '*' :: '/' :: r') = (body, some r') := by
  induction body with
  | nil => rfl
  | cons c body ih =>
    have hstart : ∀ x y : Text, c = '*' → body ++ '*' :: '/' :: x ≠ '/' :: y := by
      rintro x y rfl hy
      cases body with
      | nil => cases hy
      | cons a body =>
        obtain ⟨rfl, _⟩ := List.cons.inj hy
        cases h
    rw [List.cons_append, splitComment.eq_3 c _ (hstart r)] at h
    obtain ⟨hbody, hrest⟩ := Prod.mk.inj h
    rw [List.cons_append, splitComment.eq_3 c _ (hstart r'),
      ih (Prod.ext (List.cons.inj hbody).2 hrest)]

/-- A comment that is closed is a token in front of any text. -/
theorem ofText_comment {body w : Text} (h : Parted [.comment body true] w) (r : Text) :
    ofText ((comment body true).text ++ r) = .comment body true :: ofText r := by
  obtain ⟨⟨c, u, hcu, hread⟩, _⟩ := parted_cons_iff.1 h
  obtain ⟨rfl, rfl⟩ := List.cons.inj hcu
  have hmark : ∀ x, read '/' ('*' :: x) = readComment x := fun x => rfl
  have hsplit : splitComment (body ++ '*' :: '/' :: w) = (body, some w) := by
    have htext : '*' :: (body ++ ['*', '/']) ++ ([] ++ w) = '*' :: (body ++ '*' :: '/' :: w) := by
      simp
    change read '/' ('*' :: (body ++ ['*', '/']) ++ ([] ++ w)) = _ at hread
    rw [htext, hmark] at hread
    unfold readComment at hread
    cases hs : splitComment (body ++ '*' :: '/' :: w) with
    | mk b rest =>
      rw [hs] at hread
      cases rest with
      | none => cases hread
      | some rest =>
        obtain ⟨hcomment, rfl⟩ := Prod.mk.inj hread
        cases hcomment
        rfl
  have htext : (comment body true).text ++ r = '/' :: '*' :: (body ++ '*' :: '/' :: r) := by
    simp [text]
  rw [htext]
  refine ofText_of_read ?_
  rw [hmark]
  unfold readComment
  rw [splitComment_replace hsplit r]

end Token

end HostSheet.Syntax
