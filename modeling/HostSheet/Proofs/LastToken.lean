import Mathlib
import HostSheet.Proofs.Breaks

set_option autoImplicit false

/-!
# The last token of a text

A text falls into the same tokens in front of a break as on its own, if its last token ends there
(`Token.ofText_break`): the token is no address without its closing bracket and no comment without
its mark, and it does not end inside an escape (`Token.isOpen`).  A string must have its quote, or
else a line must end behind it.  So a text that is put together from such parts, with breaks in
between, can be read part by part.

Only the last token matters.  Where a token ends inside the text, all that its reader looks at is
there already (`Token.read_break`).
-/

namespace HostSheet.Syntax

namespace Token

/-! ## Numbers -/

/-- The characters of numbers, units apart. -/
def isNumberChar (c : Char) : Bool :=
  c.isDigit || c == '.' || c == 'e' || c == 'E' || c == '+' || c == '-'

theorem isNumberChar_of_isDigit {c : Char} (h : c.isDigit = true) : isNumberChar c = true := by
  simp [isNumberChar, h]

/-- Behind the letter of an exponent stands a digit or a sign. -/
theorem isNumberChar_of_startsExponent {c : Char} {r : Text}
    (h : startsExponent (c :: r) = true) : isNumberChar c = true := by
  unfold startsExponent at h
  split at h
  · rename_i heq
    obtain ⟨rfl, _⟩ := List.cons.inj heq
    rfl
  · rename_i heq
    obtain ⟨rfl, _⟩ := List.cons.inj heq
    rfl
  · exact isNumberChar_of_isDigit h

theorem isNumberChar_of_startsNumber {c : Char} {r : Text} (h : startsNumber (c :: r) = true) :
    isNumberChar c = true := by
  rw [startsNumber_cons] at h
  split at h
  · rename_i hsign
    rcases hsign with rfl | rfl <;> rfl
  · unfold startsUnsigned at h
    split at h
    · rename_i heq
      obtain ⟨rfl, _⟩ := List.cons.inj heq
      rfl
    · exact isNumberChar_of_isDigit h

/-- One step of a number: a character of numbers is taken, and in front of an exponent one that
can start it. -/
theorem isNumberChar_of_step {state next : NumberState} {c : Char} {r : Text}
    (hstate : state = .exponentSign → startsExponent (c :: r) = true)
    (h : numberMachine state c r = some next) :
    isNumberChar c = true ∧ (next = .exponentSign → startsExponent r = true) := by
  have hletter : c = 'e' ∨ c = 'E' → isNumberChar c = true := by
    rintro (rfl | rfl) <;> rfl
  cases state with
  | integer =>
    simp only [numberMachine] at h
    split at h
    · cases h
      exact ⟨isNumberChar_of_isDigit ‹_›, nofun⟩
    split at h
    · rename_i hpoint
      cases h
      rw [hpoint.1]
      exact ⟨rfl, nofun⟩
    split at h
    · rename_i hexponent
      exact ⟨hletter hexponent.1, fun _ => hexponent.2⟩
    · cases h
  | fraction =>
    simp only [numberMachine] at h
    split at h
    · cases h
      exact ⟨isNumberChar_of_isDigit ‹_›, nofun⟩
    split at h
    · rename_i hexponent
      exact ⟨hletter hexponent.1, fun _ => hexponent.2⟩
    · cases h
  | exponentSign =>
    cases h
    exact ⟨isNumberChar_of_startsExponent (hstate rfl), nofun⟩
  | exponent =>
    simp only [numberMachine] at h
    split at h
    · cases h
      exact ⟨isNumberChar_of_isDigit ‹_›, nofun⟩
    · cases h

theorem isNumberChar_of_mem_taken {state : NumberState} {s : Text}
    (hstate : state = .exponentSign → startsExponent s = true) {a : Char}
    (ha : a ∈ (Reading.of numberMachine state s).taken) : isNumberChar a = true := by
  induction s generalizing state with
  | nil => cases ha
  | cons c s ih =>
    rw [Reading.of] at ha
    cases hstep : numberMachine state c s with
    | none =>
      rw [hstep] at ha
      cases ha
    | some next =>
      obtain ⟨hc, hnext⟩ := isNumberChar_of_step hstate hstep
      rw [hstep] at ha
      rcases List.mem_cons.1 ha with rfl | ha
      · exact hc
      · exact ih hnext ha

theorem startsExponent_of_ofFirst {c : Char} {s : Text}
    (h : NumberState.ofFirst c = .exponentSign) : startsExponent s = true := by
  unfold NumberState.ofFirst at h
  split at h <;> cases h

theorem backslash_not_mem_number {c : Char} {r : Text} (h : startsNumber (c :: r) = true) :
    '\\' ∉ c :: (Reading.of numberMachine (.ofFirst c) r).taken := by
  intro hmem
  have hchar : isNumberChar '\\' = true := by
    rcases List.mem_cons.1 hmem with rfl | hmem
    · exact isNumberChar_of_startsNumber h
    · exact isNumberChar_of_mem_taken startsExponent_of_ofFirst hmem
  cases hchar

/-- A number does not end behind the letter of its exponent. -/
theorem state_number_ne {state : NumberState} {s : Text}
    (hstate : state = .exponentSign → startsExponent s = true) :
    (Reading.of numberMachine state s).rest = [] →
      (Reading.of numberMachine state s).state ≠ .exponentSign := by
  induction s generalizing state with
  | nil =>
    intro _ h
    cases hstate h
  | cons c s ih =>
    intro hrest
    rw [Reading.of] at hrest ⊢
    cases hstep : numberMachine state c s with
    | none =>
      rw [hstep] at hrest
      cases hrest
    | some next =>
      rw [hstep] at hrest
      exact ih (isNumberChar_of_step hstate hstep).2 hrest

theorem readUnit_of_startsName {s : Text} (h : startsName s = true) :
    readUnit s = ((Name.read s).taken, (Name.read s).rest) := by
  rw [readUnit_of_ne_percent (by rintro r rfl; cases h), if_pos h]

/-! ## Strings -/

/-- The escape that a string is in. -/
def StringState.escape? : StringState → Option Escape
  | escape e => some e
  | _ => none

theorem escape?_eq_after {q : Char} (hq : q ≠ '\\') {state next : StringState} {c : Char}
    {r : Text} (h : stringMachine q state c r = some next) :
    next.escape? = Escape.after state.escape? c := by
  have houtside : ∀ {e : Option Escape}, Escape.next? e c = none → stringStep q c = some next →
      next.escape? = Escape.after e c := by
    intro e he hstep
    unfold Escape.after
    rw [he]
    unfold stringStep at hstep
    split at hstep
    · rename_i hquote
      cases hstep
      exact (if_neg fun hc => hq (hquote.symm.trans hc)).symm
    split at hstep
    · cases hstep
    split at hstep
    · rename_i hbackslash
      cases hstep
      exact (if_pos hbackslash).symm
    · rename_i hbackslash
      cases hstep
      exact (if_neg hbackslash).symm
  cases state with
  | body => exact houtside rfl h
  | done => cases h
  | escape e =>
    unfold stringMachine at h
    dsimp only at h
    split at h
    · rename_i hnext
      cases h
      simp only [StringState.escape?, Escape.after, hnext]
    · rename_i hnext
      cases h
      simp only [StringState.escape?, Escape.after, hnext]
    · rename_i hnext
      exact houtside hnext h

/-- A string ends in the escape that its characters end in. -/
theorem escape?_eq_foldl {q : Char} (hq : q ≠ '\\') (state : StringState) (s : Text) :
    (Reading.of (stringMachine q) state s).state.escape? =
      (Reading.of (stringMachine q) state s).taken.foldl Escape.after state.escape? := by
  induction s generalizing state with
  | nil => rfl
  | cons c r ih =>
    rw [Reading.of]
    cases hs : stringMachine q state c r with
    | none => rfl
    | some next =>
      have hnext := ih next
      rw [escape?_eq_after hq hs] at hnext
      exact hnext

/-! ## Addresses -/

/-- An address is read up to its closing bracket, or to the end. -/
theorem state_address_of_rest_ne_nil {state : AddressState} {s : Text}
    (h : (Reading.of addressMachine state s).rest ≠ []) :
    (Reading.of addressMachine state s).state = .done := by
  induction s generalizing state with
  | nil => exact absurd rfl h
  | cons c r ih =>
    rw [Reading.of] at h ⊢
    cases hs : addressMachine state c r with
    | some next =>
      rw [hs] at h
      exact ih h
    | none =>
      cases state with
      | done => rfl
      | escape e =>
        unfold addressMachine at hs
        dsimp only at hs
        split at hs <;> cases hs
      | _ => cases hs

/-- An address with its closing bracket is the same in front of any text. -/
theorem of_address_append {state : AddressState} {s : Text}
    (h : (Reading.of addressMachine state s).state = .done) (w : Text) :
    Reading.of addressMachine state (s ++ w) =
      { Reading.of addressMachine state s with
        rest := (Reading.of addressMachine state s).rest ++ w } := by
  refine Reading.of_append (P := (· = .done)) (fun state a u => ?_) ?_ fun _ => h
  · cases u with
    | cons b u => exact .inl rfl
    | nil =>
      by_cases ha : a = '\\'
      · subst ha
        cases state with
        | lead => exact .inr ⟨rfl, _, rfl, nofun⟩
        | body => exact .inr ⟨rfl, _, rfl, nofun⟩
        | escape e =>
          cases hnext : Escape.next? (some e) '\\' with
          | none =>
            have hopened : addressMachine (.escape e) '\\' [] = some (.escape .opened) := by
              simp only [addressMachine, hnext]
              rfl
            exact .inr ⟨rfl, _, hopened, nofun⟩
          | some next => cases next <;> exact .inl (by simp only [addressMachine, hnext])
        | _ => exact .inl rfl
      · have hstep : addressStep a ([] ++ w) = addressStep a [] := by
          simp only [addressStep, ha, if_false]
        exact .inl (by simp only [addressMachine, hstep])
  · rintro _ e v rfl _
    rfl

/-- A quote stays the first character that is no blank. -/
theorem startsQuoted_append {r : Text} (h : startsQuoted r = true) (w : Text) :
    startsQuoted (r ++ w) = true := by
  induction r with
  | nil => cases h
  | cons a r ih =>
    rw [List.cons_append]
    rw [startsQuoted] at h ⊢
    split at h
    · rename_i hblank
      rw [if_pos hblank]
      exact ih h
    · rename_i hblank
      rw [if_neg hblank]
      exact h

/-- An address with its closing bracket holds a character that is no blank. -/
theorem startsQuoted_append_of_done {r : Text}
    (h : (Reading.of addressMachine .lead r).state = .done) (w : Text) :
    startsQuoted (r ++ w) = startsQuoted r := by
  induction r with
  | nil => cases h
  | cons a r ih =>
    rw [List.cons_append, startsQuoted, startsQuoted]
    by_cases hblank : isBlank a = true
    · rw [if_pos hblank, if_pos hblank]
      have hlead : addressMachine .lead a r = some .lead := by
        simp only [addressMachine, hblank, if_true]
      rw [Reading.of, hlead] at h
      exact ih h
    · rw [if_neg hblank, if_neg hblank]

/-! ## Comments -/

/-- A comment with its closing mark is the same in front of any text. -/
theorem splitComment_append_of_closed {s rest : Text} (h : (splitComment s).2 = some rest)
    (w : Text) : splitComment (s ++ w) = ((splitComment s).1, some (rest ++ w)) := by
  fun_induction splitComment s with
  | case1 => cases h
  | case2 r =>
    obtain rfl := Option.some.inj h
    rfl
  | case3 c r hplain ih =>
    have hplain' : ∀ r', c = '*' → r ++ w ≠ '/' :: r' := by
      intro r' hc hr
      cases r with
      | nil => cases h
      | cons a r => exact hplain r hc (by rw [(List.cons.inj hr).1])
    rw [List.cons_append, splitComment.eq_3 c _ hplain', ih h]

/-! ## The end of a token -/

/-- Whether a token is an address without its closing bracket. -/
def isOpenAddress : Token → Bool
  | .other (c :: r) =>
    match (Name.readAfter c r).rest with
    | '(' :: address => (Reading.of addressMachine .lead address).state != .done
    | _ => false
  | _ => false

/-- Whether a token at the end of a text may take more characters in: an address without its
closing bracket, or any token that ends inside an escape. -/
def isOpen (t : Token) : Bool := t.isOpenAddress || endsInEscape t.text

/-- A token at the end of a text ends in front of another text. -/
structure Ends (w : Text) (t : Token) : Prop where
  closed : t.isOpen = false
  comment : ∀ body, t ≠ .comment body false
  string : ∀ q r, t = .quoted (q :: r) →
    (Reading.of (stringMachine q) .body r).state = .done ∨ startsWithNewline w = true

/-- Without a backslash a token ends in no escape. -/
theorem ends_of_not_mem {w : Text} {t : Token} (hslash : '\\' ∉ t.text)
    (haddress : t.isOpenAddress = false) (hcomment : ∀ body, t ≠ .comment body false)
    (hstring : ∀ q r, t = .quoted (q :: r) →
      (Reading.of (stringMachine q) .body r).state = .done ∨ startsWithNewline w = true) :
    t.Ends w := by
  refine ⟨?_, hcomment, hstring⟩
  rw [isOpen, haddress, Bool.false_or, endsInEscape_eq_false_iff]
  exact Escape.foldl_after_of_not_mem hslash

/-- An address has its opening bracket. -/
theorem isOpenAddress_of_not_mem {t : Token} (h : '(' ∉ t.text) : t.isOpenAddress = false := by
  unfold isOpenAddress
  split
  · rename_i c r
    split
    · rename_i address hrest
      have hr : '(' ∈ (Name.readAfter c r).taken ++ (Name.readAfter c r).rest := by
        rw [hrest]
        simp
      rw [Name.readAfter, Reading.taken_append_rest] at hr
      exact absurd (List.mem_cons_of_mem c hr) h
    · rfl
  · rfl

theorem Ends.foldl_eq_none {w : Text} {t : Token} (h : t.Ends w) :
    t.text.foldl Escape.after none = none := by
  have hclosed := h.closed
  rw [isOpen, Bool.or_eq_false_iff] at hclosed
  exact endsInEscape_eq_false_iff.1 hclosed.2

/-- A token that ends does not end inside an escape of the name that its characters end in. -/
theorem Ends.state_name {w l s : Text} {t : Token} (h : t.Ends w) (hl : '\\' ∉ l)
    (ht : t.text = l ++ (Name.read s).taken) : (Name.read s).state = none := by
  have hfold := h.foldl_eq_none
  rw [ht, List.foldl_append, Escape.foldl_after_of_not_mem hl] at hfold
  exact (Name.state_eq_foldl none s).trans hfold

/-- An address that ends has its closing bracket. -/
theorem Ends.state_address {w : Text} {c : Char} {r address : Text}
    (h : (Token.other (c :: r)).Ends w) (hrest : (Name.readAfter c r).rest = '(' :: address) :
    (Reading.of addressMachine .lead address).state = .done := by
  have hclosed := h.closed
  rw [isOpen, Bool.or_eq_false_iff, isOpenAddress, hrest] at hclosed
  simpa using hclosed.1

/-- The argument of a function is the same in front of any text, if an address ends. -/
theorem readArgument_append {c : Char} {name r w : Text}
    (hname : (Name.readAfter c (name ++ '(' :: r)).rest = '(' :: r)
    (h : (readArgument (c :: name) r).2 = [] → (readArgument (c :: name) r).1.Ends w) :
    readArgument (c :: name) (r ++ w) =
      ((readArgument (c :: name) r).1, (readArgument (c :: name) r).2 ++ w) := by
  unfold readArgument at h ⊢
  by_cases hurl : Name.spells ['u', 'r', 'l'] (c :: name) = true ∧ (!startsQuoted r) = true
  · rw [if_pos hurl] at h
    dsimp only at h
    have hdone : (Reading.of addressMachine .lead r).state = .done := by
      by_cases hrest : (Reading.of addressMachine .lead r).rest = []
      · have hends := h hrest
        rw [Reading.taken_of_rest_eq_nil hrest] at hends
        exact hends.state_address hname
      · exact state_address_of_rest_ne_nil hrest
    rw [if_pos hurl, startsQuoted_append_of_done hdone, if_pos hurl, of_address_append hdone]
  · have hurl' : ¬(Name.spells ['u', 'r', 'l'] (c :: name) = true ∧
        (!startsQuoted (r ++ w)) = true) := by
      rintro ⟨hspells, hquoted⟩
      cases hr : startsQuoted r with
      | false => exact hurl ⟨hspells, by rw [hr]; rfl⟩
      | true =>
        rw [startsQuoted_append hr] at hquoted
        cases hquoted
    rw [if_neg hurl, if_neg hurl']

section Break

variable {w : Text} (hw : Breaks w)

include hw

theorem of_number_break (c : Char) (r : Text) :
    Reading.of numberMachine (.ofFirst c) (r ++ w) =
      { Reading.of numberMachine (.ofFirst c) r with
        rest := (Reading.of numberMachine (.ofFirst c) r).rest ++ w } := by
  refine Reading.of_append (P := (· ≠ .exponentSign)) (fun state a u => .inl ?_) ?_
    (state_number_ne startsExponent_of_ofFirst)
  · unfold numberMachine
    rw [startsWithDigit_break hw, startsExponent_break hw]
  · rintro state e v hstate rfl
    rcases isBreak_cases (hw e rfl) with
      rfl | rfl | rfl | rfl | rfl | rfl | rfl | rfl | rfl | rfl <;>
      cases state <;> first | rfl | exact absurd rfl hstate

/-- A string that ends is the same in front of a break. -/
theorem of_string_break {q : Char} (hquote : q = '"' ∨ q = '\'') {r : Text}
    (h : (Reading.of (stringMachine q) .body r).rest = [] →
      (Token.quoted (q :: (Reading.of (stringMachine q) .body r).taken)).Ends w) :
    Reading.of (stringMachine q) .body (r ++ w) =
      { Reading.of (stringMachine q) .body r with
        rest := (Reading.of (stringMachine q) .body r).rest ++ w } := by
  have hq : q ≠ '\\' := by rcases hquote with rfl | rfl <;> decide
  refine Reading.of_append
    (P := fun state => state = .done ∨ state = .body ∧ startsWithNewline w = true)
    (fun state a u => .inl rfl) ?_ fun hrest => ?_
  · rintro state e v (rfl | ⟨rfl, hnewline⟩) rfl
    · rfl
    · have hne : e ≠ q := by
        rintro rfl
        rcases hquote with rfl | rfl <;> cases hnewline
      have hline : isNewline e = true := hnewline
      simp only [stringMachine, stringStep, hne, hline, if_true, if_false]
  · have hends := h hrest
    rw [Reading.taken_of_rest_eq_nil hrest] at hends
    rcases hends.string q r rfl with hdone | hnewline
    · exact .inl hdone
    · have hescape := escape?_eq_foldl hq .body r
      rw [Reading.taken_of_rest_eq_nil hrest] at hescape
      have hfold := hends.foldl_eq_none
      have hafter : Escape.after none q = none := if_neg hq
      rw [text, List.foldl_cons, hafter] at hfold
      have hbody : StringState.body.escape? = none := rfl
      rw [hbody, hfold] at hescape
      generalize (Reading.of (stringMachine q) .body r).state = state at hescape
      cases state with
      | body => exact .inr ⟨rfl, hnewline⟩
      | done => exact .inl rfl
      | escape e => cases hescape

/-- A unit that is a name is the same in front of a break, if it does not end inside an escape. -/
theorem readUnit_break {s : Text}
    (h : startsName s = true → (Name.read s).rest = [] → (Name.read s).state = none) :
    readUnit (s ++ w) = ((readUnit s).1, (readUnit s).2 ++ w) := by
  by_cases hpercent : ∃ r, s = '%' :: r
  · obtain ⟨r, rfl⟩ := hpercent
    rfl
  · have hs : ∀ r, s ≠ '%' :: r := fun r hr => hpercent ⟨r, hr⟩
    have hsw : ∀ r, s ++ w ≠ '%' :: r := by
      intro r hr
      obtain ⟨u, hu⟩ := hw.exists_cons rfl hr
      exact hs u hu
    have hlone : s ≠ ['\\'] := by
      rintro rfl
      cases h rfl rfl
    rw [readUnit_of_ne_percent hs, readUnit_of_ne_percent hsw, startsName_break hw hlone]
    by_cases hname : startsName s = true
    · rw [if_pos hname, if_pos hname, Name.read, Name.of_machine_break hw (h hname)]
      rfl
    · rw [if_neg hname, if_neg hname]

theorem readSign_break (c : Char) (r : Text) :
    readSign c (r ++ w) = ((readSign c r).1, (readSign c r).2 ++ w) := by
  have htail : ([' ', '\t', '\n', '\x0C', '\r', ';', '\x7b', '\x7d', '/', ':'].any
      (signTail c).contains) = false := by
    unfold signTail
    split
    · rfl
    · split <;> rfl
  rw [readSign_eq, readSign_eq, isPrefixOf_break hw htail]
  split
  · rename_i hsign
    rw [Bool.and_eq_true, List.isPrefixOf_iff_prefix] at hsign
    obtain ⟨_, x, rfl⟩ := hsign
    rw [List.append_assoc, List.drop_left, List.drop_left]
  · rfl

/-- A comment with its closing mark, and every other mark, is the same in front of a break. -/
theorem readMark_break {c : Char} {r : Text}
    (h : (readMark c r).2 = [] → (readMark c r).1.Ends w) :
    readMark c (r ++ w) = ((readMark c r).1, (readMark c r).2 ++ w) := by
  by_cases hcomment : c = '/' ∧ ∃ body, r = '*' :: body
  · obtain ⟨rfl, body, rfl⟩ := hcomment
    change readComment (body ++ w) = ((readComment body).1, (readComment body).2 ++ w)
    change (readComment body).2 = [] → (readComment body).1.Ends w at h
    unfold readComment at h ⊢
    cases hs : splitComment body with
    | mk text rest =>
      cases rest with
      | none =>
        rw [hs] at h
        exact absurd rfl ((h rfl).comment text)
      | some rest =>
        have hclosed : (splitComment body).2 = some rest := by rw [hs]
        rw [splitComment_append_of_closed hclosed, hs]
  · have hstar : ∀ x, c = '/' → r ++ w ≠ '*' :: x :=
      fun x hc hx => hcomment ⟨hc, hw.exists_cons rfl hx⟩
    have hstar' : ∀ x, c = '/' → r ≠ '*' :: x := fun x hc hr => hcomment ⟨hc, x, hr⟩
    rw [readMark.eq_2 c _ hstar, readMark.eq_2 c _ hstar']
    cases ofMark? c with
    | some t => rfl
    | none => exact readSign_break hw c r

/-- A named token is the same in front of a break, if it ends. -/
theorem readNamed_break {c : Char} {r : Text}
    (h : (readNamed c r).2 = [] → (readNamed c r).1.Ends w) :
    readNamed c (r ++ w) = ((readNamed c r).1, (readNamed c r).2 ++ w) := by
  have hstate : (Name.readAfter c r).rest = [] → (Name.readAfter c r).state = none := by
    intro hrest
    have hnone : ∀ x, (Name.readAfter c r).rest ≠ '(' :: x := by
      intro x hx
      rw [hrest] at hx
      cases hx
    rw [readNamed_of_no_bracket hnone] at h
    have hfold := (h hrest).foldl_eq_none
    rw [text, List.foldl_cons] at hfold
    exact (Name.state_eq_foldl _ r).trans hfold
  have hname : Name.readAfter c (r ++ w) =
      { Name.readAfter c r with rest := (Name.readAfter c r).rest ++ w } :=
    Name.of_machine_break hw hstate
  by_cases hbracket : ∃ x, (Name.readAfter c r).rest = '(' :: x
  · obtain ⟨x, hx⟩ := hbracket
    have happ : (Name.readAfter c r).taken ++ '(' :: x = r := by
      rw [← hx]
      exact Reading.taken_append_rest _ _ _
    have hnext : (Name.readAfter c (r ++ w)).rest = '(' :: (x ++ w) := by
      rw [hname, hx]
      rfl
    rw [readNamed_of_bracket hx] at h
    rw [readNamed_of_bracket hnext, readNamed_of_bracket hx, hname]
    exact readArgument_append (by rw [happ, hx]) h
  · have hnone : ∀ x, (Name.readAfter c r).rest ≠ '(' :: x := fun x hx => hbracket ⟨x, hx⟩
    have hnone' : ∀ x, (Name.readAfter c (r ++ w)).rest ≠ '(' :: x := by
      intro x hr
      rw [hname] at hr
      change (Name.readAfter c r).rest ++ w = '(' :: x at hr
      exact hbracket (hw.exists_cons rfl hr)
    rw [readNamed_of_no_bracket hnone, readNamed_of_no_bracket hnone', hname]

/-- A token that ends is the same in front of a break. -/
theorem read_break {c : Char} {r : Text} (h : (read c r).2 = [] → (read c r).1.Ends w) :
    read c (r ++ w) = ((read c r).1, (read c r).2 ++ w) := by
  have hlone : c :: r ≠ ['\\'] := by
    intro heq
    obtain ⟨rfl, rfl⟩ := List.cons.inj heq
    have hfold := (h rfl).foldl_eq_none
    cases hfold
  have harrow : startsDashArrow (c :: (r ++ w)) = startsDashArrow (c :: r) :=
    isPrefixOf_break hw rfl (c :: r)
  have hname : startsName (c :: (r ++ w)) = startsName (c :: r) := startsName_break hw hlone
  have hat : c = '@' → startsName (r ++ w) = startsName r := by
    rintro rfl
    refine startsName_break hw ?_
    rintro rfl
    have hfold := (h rfl).foldl_eq_none
    cases hfold
  unfold read at h ⊢
  rw [startsNumber_break hw, harrow, hname]
  by_cases hblank : isBlank c = true
  · rw [if_pos hblank, if_pos hblank]
  rw [if_neg hblank] at h ⊢
  rw [if_neg hblank]
  by_cases hquote : c = '"' ∨ c = '\''
  · rw [if_pos hquote] at h ⊢
    rw [if_pos hquote, of_string_break hw hquote h]
  rw [if_neg hquote] at h ⊢
  rw [if_neg hquote]
  by_cases hnumber : startsNumber (c :: r) = true
  · rw [if_pos hnumber] at h ⊢
    rw [if_pos hnumber, of_number_break hw c r]
    dsimp only at h ⊢
    rw [readUnit_break hw fun hs hrest => ?_]
    rw [readUnit_of_startsName hs] at h
    exact (h hrest).state_name (backslash_not_mem_number hnumber) rfl
  rw [if_neg hnumber] at h ⊢
  rw [if_neg hnumber]
  by_cases hdash : startsDashArrow (c :: r) = true
  · rw [if_pos hdash, if_pos hdash]
    exact readSign_break hw c r
  rw [if_neg hdash] at h ⊢
  rw [if_neg hdash]
  by_cases hnamed : startsName (c :: r) = true
  · rw [if_pos hnamed] at h ⊢
    rw [if_pos hnamed]
    exact readNamed_break hw h
  rw [if_neg hnamed] at h ⊢
  rw [if_neg hnamed]
  by_cases hatName : c = '@' ∧ startsName r = true
  · rw [if_pos hatName] at h ⊢
    rw [if_pos ⟨hatName.1, (hat hatName.1).trans hatName.2⟩, Name.read, Name.of_machine_break hw
      fun hrest => (h hrest).state_name (l := ['@']) (by decide) rfl]
    rfl
  rw [if_neg hatName] at h ⊢
  rw [if_neg fun hboth => hatName ⟨hboth.1, (hat hboth.1).symm.trans hboth.2⟩]
  by_cases hhash : c = '#'
  · rw [if_pos hhash] at h ⊢
    rw [if_pos hhash, Name.read, Name.of_machine_break hw
      fun hrest => (h hrest).state_name (l := ['#']) (by decide) rfl]
    rfl
  rw [if_neg hhash] at h ⊢
  rw [if_neg hhash]
  exact readMark_break hw h

/-- A text falls into the same tokens in front of a break, if its last token ends there. -/
theorem ofText_break {s : Text} (h : ∀ t, (ofText s).getLast? = some t → t.Ends w) :
    ofText (s ++ w) = ofText s ++ ofText w := by
  fun_induction ofText s with
  | case1 => rfl
  | case2 c r ih =>
    have hread : read c (r ++ w) = ((read c r).1, (read c r).2 ++ w) := by
      refine read_break hw fun hrest => h _ ?_
      rw [hrest, ofText.eq_1]
      rfl
    rw [List.cons_append, ofText.eq_2, hread, List.cons_append, ih fun t ht => h t ?_]
    rw [List.getLast?_cons, ht]
    rfl

end Break

end Token

end HostSheet.Syntax
