import Mathlib
import HostSheet.Proofs.Closed
import HostSheet.Proofs.LastToken

set_option autoImplicit false

/-!
# Closed texts, character by character

Without backslashes a text can be checked for being closed by going through its characters
once, with the open brackets and the quote of the open string (`Text.closes`).  A text that
passes is closed, and it falls into the same tokens in front of every break
(`Text.isClosed_of_closes`).
-/

namespace HostSheet

open Syntax

namespace Text

def isQuote (c : Char) : Bool := c == '"' || c == '\''

/-- Whether a comment starts here. -/
def startsComment (s : Text) : Bool := ['/', '*'].isPrefixOf s

/-- Whether an address without quotes starts here. -/
def startsAddress (s : Text) : Bool :=
  ['u', 'r', 'l', '('].isPrefixOf (s.map Char.toLower) && !Token.startsQuoted (s.drop 4)

/-- Goes through a text with the quote of the string that is open, if one is, and with the open
brackets.  Strings must end on their line, all brackets must be closed, and outside brackets
there may be no semicolon and no brace.  Comments and addresses without quotes are not let
pass. -/
def closes : Option Char → List Bracket → Text → Bool
  | none, stack, [] => stack.isEmpty
  | some _, _, [] => false
  | some q, stack, c :: r =>
    !isNewline c && closes (if c = q then none else some q) stack r
  | none, stack, c :: r =>
    !startsComment (c :: r) && !startsAddress (c :: r) &&
      if isQuote c then closes (some c) stack r
      else
        match Token.ofMark? c with
        | some t => !(stack.isEmpty && Draft.isForeign t) &&
            closes none (Draft.bracketsAfter stack t) r
        | none => closes none stack r

end Text

/-! ## Characters of names and numbers -/

namespace Syntax

/-- The characters that neither are marks nor start strings. -/
def isInert (c : Char) : Bool := !Text.isQuote c && (Token.ofMark? c).isNone

theorem isInert_iff {c : Char} :
    isInert c = true ↔ c ∉ ['"', '\'', ';', ':', '(', '[', '\x7b', ')', ']', '\x7d'] := by
  have hmark : Token.ofMark? c = none ↔ c ∉ [';', ':', '(', '[', '\x7b', ')', ']', '\x7d'] := by
    unfold Token.ofMark?
    split <;> simp_all
  simp only [isInert, Text.isQuote, Bool.and_eq_true, Bool.not_eq_true', Bool.or_eq_false_iff,
    beq_eq_false_iff_ne, Option.isNone_iff_eq_none, hmark, List.mem_cons, not_or]
  tauto

/-- What holds of no mark and no quote holds of inert characters only. -/
theorem isInert_of {p : Char → Bool} {c : Char} (hc : p c = true)
    (hp : (['"', '\'', ';', ':', '(', '[', '\x7b', ')', ']', '\x7d'].any p) = false) :
    isInert c = true := by
  rw [isInert_iff]
  intro hmem
  rw [List.any_eq_false] at hp
  exact hp c hmem hc

theorem isInert_of_isBlank {c : Char} (h : isBlank c = true) : isInert c = true :=
  isInert_of h rfl

theorem isInert_of_isNameChar {c : Char} (h : isNameChar c = true) : isInert c = true :=
  isInert_of h rfl

theorem Name.isInert_of_mem_taken {s : Text} (hs : '\\' ∉ s) {a : Char}
    (ha : a ∈ (Reading.of machine none s).taken) : isInert a = true := by
  induction s with
  | nil => cases ha
  | cons c s ih =>
    rw [List.mem_cons, not_or] at hs
    rw [Reading.of, machine_of_ne (Ne.symm hs.1)] at ha
    by_cases hc : isNameChar c = true
    · rw [if_pos hc] at ha
      rcases List.mem_cons.1 ha with rfl | ha
      · exact isInert_of_isNameChar hc
      · exact ih hs.2 ha
    · rw [if_neg hc] at ha
      cases ha

namespace Token

theorem isInert_of_isNumberChar {c : Char} (h : isNumberChar c = true) : isInert c = true :=
  isInert_of h rfl

theorem isInert_of_mem_unit {s : Text} (hs : '\\' ∉ s) {a : Char} (ha : a ∈ (readUnit s).1) :
    isInert a = true := by
  unfold readUnit at ha
  split at ha
  · rw [List.mem_singleton.1 ha]
    rfl
  · split at ha
    · exact Name.isInert_of_mem_taken hs ha
    · cases ha

end Token

end Syntax

/-! ## One token -/

namespace Syntax.Token

/-- What is read where neither a comment nor an address starts. -/
inductive Shape (c : Char) (r : Text) : Token × Text → Prop
  | string (h : Text.isQuote c = true) :
      Shape c r (.quoted (c :: (Reading.of (stringMachine c) .body r).taken),
        (Reading.of (stringMachine c) .body r).rest)
  | mark {t : Token} (h : ofMark? c = some t) : Shape c r (t, r)
  | function {name rest : Text} (h : ∀ a ∈ name, isInert a = true) :
      Shape c r (.opener name .round, rest)
  | inert {t : Token} {rest : Text} (h : ∀ a ∈ t.text, isInert a = true)
      (hsame : ∀ stack, Draft.bracketsAfter stack t = stack)
      (hforeign : Draft.isForeign t = false) (hquoted : ∀ raw, t ≠ .quoted raw) :
      Shape c r (t, rest)

theorem Shape.other {c : Char} {r raw rest : Text} (h : ∀ a ∈ raw, isInert a = true) :
    Shape c r (.other raw, rest) := .inert h (fun _ => rfl) rfl nofun

theorem isInert_of_ofMark? {c : Char} (h : ofMark? c = none) (hquote : Text.isQuote c = false) :
    isInert c = true := by
  rw [isInert, h, hquote]
  rfl

theorem isInert_of_mem_signTail (c : Char) {a : Char} (ha : a ∈ signTail c) :
    isInert a = true := by
  have hall : (signTail c).all isInert = true := by
    unfold signTail
    split
    · rfl
    · split <;> rfl
  exact List.all_eq_true.1 hall a ha

theorem shape_readSign {c : Char} (hc : isInert c = true) (r : Text) :
    Shape c r (readSign c r) := by
  rw [readSign_eq]
  split
  · refine .other fun a ha => ?_
    rcases List.mem_cons.1 ha with rfl | ha
    · exact hc
    · exact isInert_of_mem_signTail c ha
  · refine .other fun a ha => ?_
    rwa [List.mem_singleton.1 ha]

theorem isInert_of_startsName {c : Char} {r : Text} (h : startsName (c :: r) = true)
    (hc : c ≠ '\\') : isInert c = true := by
  unfold startsName at h
  split at h
  · cases h
  · rename_i heq
    exact absurd (List.cons.inj heq).1 hc
  · rename_i heq
    rw [(List.cons.inj heq).1]
    rfl
  · rename_i heq
    obtain ⟨rfl, _⟩ := List.cons.inj heq
    exact isInert_of (p := isNameStart) h rfl

end Syntax.Token

/-- Without a backslash a name spells itself. -/
theorem Syntax.Name.spelling_of_not_mem {s : Text} (h : '\\' ∉ s) : spelling none s = s := by
  induction s with
  | nil => rfl
  | cons c s ih =>
    rw [List.mem_cons, not_or] at h
    rw [spelling, Option.bind_none]
    dsimp only
    rw [if_neg (Ne.symm h.1), ih h.2]
    rfl

namespace Syntax.Token

variable {c : Char} {r : Text} (hslash : '\\' ∉ c :: r)
  (haddress : Text.startsAddress (c :: r) = false)

include hslash haddress

/-- Where no address starts, the argument of `url` is a string. -/
theorem startsQuoted_of_spells {rest : Text} (hrest : (Name.readAfter c r).rest = '(' :: rest)
    (hurl : Name.spells ['u', 'r', 'l'] (c :: (Name.readAfter c r).taken) = true) :
    startsQuoted rest = true := by
  have happ : (Name.readAfter c r).taken ++ '(' :: rest = r := by
    rw [← hrest]
    exact Reading.taken_append_rest _ _ _
  generalize (Name.readAfter c r).taken = taken at hurl happ
  subst happ
  have hname : '\\' ∉ c :: taken := fun h => hslash (List.mem_append_left ('(' :: rest) h)
  rw [Name.spells, Name.spelling_of_not_mem hname, beq_iff_eq] at hurl
  have hlength : taken.length = 2 := by
    have := congrArg List.length hurl
    simpa using this
  have hsame : ['u', 'r', 'l', '('].isPrefixOf ((c :: (taken ++ '(' :: rest)).map Char.toLower) =
      true := by
    rw [List.isPrefixOf_iff_prefix, ← List.cons_append, List.map_append, hurl]
    exact ⟨rest.map Char.toLower, rfl⟩
  have hdrop : (c :: (taken ++ '(' :: rest)).drop 4 = rest := by
    rw [List.drop_succ_cons, List.drop_append, hlength, List.drop_eq_nil_of_le (by omega)]
    rfl
  rw [Text.startsAddress, hsame, hdrop, Bool.true_and, Bool.not_eq_false'] at haddress
  exact haddress

theorem shape_readNamed (hc : isInert c = true) : Shape c r (readNamed c r) := by
  have hname : ∀ a ∈ c :: (Name.readAfter c r).taken, isInert a = true := by
    rw [List.mem_cons, not_or] at hslash
    intro a ha
    rcases List.mem_cons.1 ha with rfl | ha
    · exact hc
    · rw [Name.readAfter, Name.stateAfter, if_neg (Ne.symm hslash.1)] at ha
      exact Name.isInert_of_mem_taken hslash.2 ha
  by_cases hbracket : ∃ rest, (Name.readAfter c r).rest = '(' :: rest
  · obtain ⟨rest, hrest⟩ := hbracket
    rw [readNamed_of_bracket hrest, readArgument, if_neg]
    · exact .function hname
    · rintro ⟨hurl, hquoted⟩
      rw [startsQuoted_of_spells hslash haddress hrest hurl] at hquoted
      cases hquoted
  · rw [readNamed_of_no_bracket fun rest hrest => hbracket ⟨rest, hrest⟩]
    exact .other hname

theorem shape_read (hcomment : Text.startsComment (c :: r) = false) : Shape c r (read c r) := by
  have hc : c ≠ '\\' := fun h => hslash (h ▸ List.mem_cons_self)
  have hr : '\\' ∉ r := fun h => hslash (List.mem_cons_of_mem _ h)
  unfold read
  split
  · rename_i hblank
    refine .inert (fun a ha => ?_) (fun _ => rfl) rfl (by rintro raw ⟨⟩)
    rw [List.mem_singleton.1 ha]
    exact isInert_of_isBlank hblank
  split
  · rename_i hquote
    exact .string (by simpa [Text.isQuote] using hquote)
  split
  · rename_i hnumber
    refine .other fun a ha => ?_
    rcases List.mem_append.1 ha with ha | ha
    · rcases List.mem_cons.1 ha with rfl | ha
      · exact isInert_of_isNumberChar (isNumberChar_of_startsNumber hnumber)
      · exact isInert_of_isNumberChar (isNumberChar_of_mem_taken startsExponent_of_ofFirst ha)
    · refine isInert_of_mem_unit (fun h => hr ?_) ha
      rw [← Reading.taken_append_rest numberMachine (.ofFirst c) r]
      exact List.mem_append_right _ h
  split
  · rename_i harrow
    rw [startsDashArrow, List.isPrefixOf_iff_prefix] at harrow
    obtain ⟨x, hx⟩ := harrow
    exact shape_readSign (by rw [← (List.cons.inj hx).1]; rfl) r
  split
  · rename_i hname
    exact shape_readNamed hslash haddress (isInert_of_startsName hname hc)
  split
  · refine .inert (fun a ha => ?_) (fun _ => rfl) rfl (by rintro raw ⟨⟩)
    rcases List.mem_cons.1 ha with rfl | ha
    · rfl
    · exact Name.isInert_of_mem_taken hr ha
  split
  · refine .other fun a ha => ?_
    rcases List.mem_cons.1 ha with rfl | ha
    · rfl
    · exact Name.isInert_of_mem_taken hr ha
  · rename_i hquote _ _ _ _ _
    have hstar : ∀ x, c = '/' → r ≠ '*' :: x := by
      rintro x rfl rfl
      cases hcomment
    rw [readMark.eq_2 c r hstar]
    cases hmark : ofMark? c with
    | some t => exact .mark hmark
    | none =>
      refine shape_readSign (isInert_of_ofMark? hmark ?_) r
      simpa [Text.isQuote] using hquote

end Syntax.Token

/-! ## All tokens -/

namespace Text

variable {stack : List Bracket} {c : Char} {r : Text}

theorem closes_cons (h : closes none stack (c :: r) = true) :
    startsComment (c :: r) = false ∧ startsAddress (c :: r) = false ∧
      (if isQuote c then closes (some c) stack r
      else
        match Token.ofMark? c with
        | some t => !(stack.isEmpty && Draft.isForeign t) &&
            closes none (Draft.bracketsAfter stack t) r
        | none => closes none stack r) = true := by
  rw [closes, Bool.and_eq_true, Bool.and_eq_true, Bool.not_eq_true', Bool.not_eq_true'] at h
  exact ⟨h.1.1, h.1.2, h.2⟩

/-- Inert characters change nothing. -/
theorem closes_of_inert {u : Text} (hu : ∀ a ∈ u, isInert a = true)
    (h : closes none stack (u ++ r) = true) : closes none stack r = true := by
  induction u with
  | nil => exact h
  | cons a u ih =>
    have ha := hu a List.mem_cons_self
    rw [isInert, Bool.and_eq_true, Bool.not_eq_true', Option.isNone_iff_eq_none] at ha
    obtain ⟨_, _, hrest⟩ := closes_cons h
    rw [ha.1, ha.2] at hrest
    exact ih (fun b hb => hu b (List.mem_cons_of_mem _ hb)) hrest

/-- A string that is closed ends with its quote. -/
theorem closes_string {q : Char} (hslash : '\\' ∉ r) (h : closes (some q) stack r = true) :
    (Reading.of (Token.stringMachine q) .body r).state = .done ∧
      (Reading.of (Token.stringMachine q) .body r).taken.getLast? = some q ∧
      closes none stack (Reading.of (Token.stringMachine q) .body r).rest = true := by
  induction r with
  | nil => cases h
  | cons c r ih =>
    rw [closes, Bool.and_eq_true, Bool.not_eq_true'] at h
    obtain ⟨hline, hrest⟩ := h
    rw [List.mem_cons, not_or] at hslash
    have hstep : Token.stringMachine q .body c r =
        if c = q then some .done else some .body := by
      have hc : c ≠ '\\' := Ne.symm hslash.1
      simp only [Token.stringMachine, Token.stringStep, hline, hc, if_false, Bool.false_eq_true]
    rw [Reading.of, hstep]
    by_cases hq : c = q
    · rw [if_pos hq] at hrest ⊢
      have hdone : Reading.of (Token.stringMachine q) .done r = ⟨[], .done, r⟩ := by
        cases r <;> rfl
      dsimp only
      rw [hdone]
      exact ⟨rfl, by rw [hq]; rfl, hrest⟩
    · rw [if_neg hq] at hrest ⊢
      obtain ⟨hstate, hlast, hafter⟩ := ih hslash.2 hrest
      refine ⟨hstate, ?_, hafter⟩
      change (c :: (Reading.of (Token.stringMachine q) .body r).taken).getLast? = some q
      rw [List.getLast?_cons, hlast]
      rfl

/-- A text that passes goes on to pass behind its first token. -/
theorem closes_read (hslash : '\\' ∉ c :: r) (h : closes none stack (c :: r) = true) :
    (stack = [] → Draft.isForeign (Token.read c r).1 = false) ∧
      closes none (Draft.bracketsAfter stack (Token.read c r).1) (Token.read c r).2 = true := by
  obtain ⟨hcomment, haddress, hrest⟩ := closes_cons h
  obtain ⟨u, hu, happ⟩ := Token.splits_read c r
  have hshape := Token.shape_read hslash haddress hcomment
  generalize Token.read c r = p at hu happ hshape
  cases hshape with
  | string hquote =>
    rw [hquote, if_pos rfl] at hrest
    obtain ⟨_, hlast, hafter⟩ := closes_string (fun h => hslash (List.mem_cons_of_mem _ h)) hrest
    refine ⟨fun _ => ?_, hafter⟩
    have hne : (Reading.of (Token.stringMachine c) .body r).taken ≠ [] := by
      intro hnil
      rw [hnil] at hlast
      cases hlast
    have hlength := List.length_pos_iff.2 hne
    simp [Draft.isForeign, closesString, List.getLast?_cons, hlast]
    omega
  | mark hmark =>
    have hquote : isQuote c = false := by
      cases hq : isQuote c with
      | false => rfl
      | true =>
        simp only [isQuote, Bool.or_eq_true, beq_iff_eq] at hq
        rcases hq with rfl | rfl <;> cases hmark
    rw [hquote, hmark] at hrest
    simp only [Bool.false_eq_true, if_false, Bool.and_eq_true, Bool.not_eq_true',
      Bool.and_eq_false_iff] at hrest
    exact ⟨fun hs => hrest.1.resolve_left (by simp [hs]), hrest.2⟩
  | @function name rest hname =>
    have htext : c :: r = name ++ '(' :: rest := by
      rw [← happ, ← List.cons_append, ← hu]
      exact List.append_assoc name ['('] rest
    rw [htext] at h
    obtain ⟨_, _, hbracket⟩ := closes_cons (closes_of_inert hname h)
    have hafter : closes none (Bracket.round :: stack) rest = true := by
      simpa [isQuote, Token.ofMark?, Draft.isForeign, Draft.bracketsAfter] using hbracket
    exact ⟨fun _ => rfl, hafter⟩
  | @inert t rest hinert hsame hforeign _ =>
    refine ⟨fun _ => hforeign, ?_⟩
    rw [hsame]
    rw [← happ, ← List.cons_append, ← hu] at h
    exact closes_of_inert hinert h

/-- If a text that passes is a single token, the token ends in front of any text. -/
theorem ends_of_closes (hslash : '\\' ∉ c :: r) (h : closes none stack (c :: r) = true)
    (hrest : (Token.read c r).2 = []) (w : Text) : (Token.read c r).1.Ends w := by
  obtain ⟨hcomment, haddress, hpass⟩ := closes_cons h
  obtain ⟨u, hu, happ⟩ := Token.splits_read c r
  have hescape : '\\' ∉ (Token.read c r).1.text := by
    rwa [hu, show u = r by rw [← happ, hrest, List.append_nil]]
  have hshape := Token.shape_read hslash haddress hcomment
  generalize Token.read c r = p at hescape hshape hrest
  cases hshape with
  | string hquote =>
    rw [hquote, if_pos rfl] at hpass
    have hdone := (closes_string (fun h => hslash (List.mem_cons_of_mem _ h)) hpass).1
    refine Token.ends_of_not_mem hescape rfl nofun fun q x heq => .inl ?_
    obtain ⟨rfl, rfl⟩ := List.cons.inj (Token.quoted.inj heq)
    rwa [Reading.taken_of_rest_eq_nil hrest]
  | mark hmark =>
    refine Token.ends_of_not_mem hescape ?_ ?_ ?_ <;>
      (unfold Token.ofMark? at hmark; split at hmark <;> cases hmark) <;> first | rfl | nofun
  | function _ => exact Token.ends_of_not_mem hescape rfl nofun nofun
  | inert hinert _ hforeign hquoted =>
    refine Token.ends_of_not_mem hescape (Token.isOpenAddress_of_not_mem fun hmem => ?_) ?_
      fun q x heq => absurd heq (hquoted _)
    · cases hinert '(' hmem
    · rintro body rfl
      cases hforeign

/-- A text that passes is accepted, closes its brackets, and falls into the same tokens in front
of a break. -/
theorem ofText_of_closes {s : Text} (hslash : '\\' ∉ s) (h : closes none stack s = true) :
    Draft.accepts stack (Token.ofText s) = true ∧
      (Token.ofText s).foldl Draft.bracketsAfter stack = [] ∧
      ∀ w, Breaks w → Token.ofText (s ++ w) = Token.ofText s ++ Token.ofText w := by
  fun_induction Token.ofText s generalizing stack with
  | case1 =>
    rw [closes, List.isEmpty_iff] at h
    exact ⟨rfl, h, fun w _ => rfl⟩
  | case2 c r ih =>
    obtain ⟨hforeign, hrest⟩ := closes_read hslash h
    have hbackslash : '\\' ∉ (Token.read c r).2 := by
      obtain ⟨u, _, happ⟩ := Token.splits_read c r
      exact fun hmem => hslash (List.mem_cons_of_mem _ (happ ▸ List.mem_append_right u hmem))
    obtain ⟨haccepts, hclosed, hbreaks⟩ := ih hbackslash hrest
    refine ⟨?_, hclosed, fun w hw => ?_⟩
    · rw [Draft.accepts, haccepts, Bool.and_true, Bool.not_eq_true', Bool.and_eq_false_iff]
      by_cases hs : stack = []
      · exact .inr (hforeign hs)
      · exact .inl (List.isEmpty_eq_false_iff.2 hs)
    · rw [List.cons_append, Token.ofText,
        Token.read_break hw fun hend => ends_of_closes hslash h hend w]
      exact congrArg (_ :: ·) (hbreaks w hw)

/-- A text that passes is closed, if it has a character and no blank at its ends: brackets and
strings in it are closed, and semicolons and braces stand inside them. -/
theorem isClosed_of_closes {x : Text} (hne : x ≠ [])
    (hhead : ∀ c, x.head? = some c → isBlank c = false)
    (hlast : ∀ c, x.getLast? = some c → isBlank c = false) (hslash : '\\' ∉ x)
    (h : closes none [] x = true) : IsClosed x := by
  obtain ⟨haccepts, hclosed, hbreaks⟩ := ofText_of_closes hslash h
  exact ⟨hne, hhead, hlast, haccepts, hclosed, fun e he =>
    hbreaks _ (breaks_cons (isBreak_of_isStop he) [])⟩

example : IsClosed "a[b=';'] > c:not(d) url( \"\x7b\" )".toList :=
  isClosed_of_closes nofun (by simp [isBlank]) (by simp [isBlank]) (by decide) (by decide)

/-! ## Properties -/

/-- The characters that no property holds. -/
def propertyMarks : Text :=
  [';', ':', '@', '\\', '/', '(', ')', '[', ']', '\x7b', '\x7d', '"', '\'']

/-- A text that can be the property of a declaration. -/
structure IsProperty (x : Text) : Prop where
  ne_nil : x ≠ []
  head : ∀ c, x.head? = some c → isBlank c = false
  last : ∀ c, x.getLast? = some c → isBlank c = false
  plain : ∀ c ∈ x, c ∉ propertyMarks

theorem isProperty_iff {x : Text} :
    IsProperty x ↔ x ≠ [] ∧ (x.head?.all (!isBlank ·)) = true ∧
      (x.getLast?.all (!isBlank ·)) = true ∧ (x.all (!propertyMarks.contains ·)) = true := by
  simp only [Option.all_eq_true, List.all_eq_true, Bool.not_eq_true', List.contains_eq_mem,
    decide_eq_false_iff_not]
  exact ⟨fun h => ⟨h.ne_nil, h.head, h.last, h.plain⟩,
    fun ⟨hne, hhead, hlast, hplain⟩ => ⟨hne, hhead, hlast, hplain⟩⟩

instance (x : Text) : Decidable (IsProperty x) := decidable_of_iff _ isProperty_iff.symm

theorem eq_of_toLower_eq_bracket {c : Char} (h : c.toLower = '(') : c = '(' := by
  unfold Char.toLower at h
  split at h
  · rename_i hupper
    have hval : c.val + 32 = 40 := congrArg Char.val h
    have hlow : 65 ≤ c.val.toNat := UInt32.le_iff_toNat_le.1 hupper.1
    have hhigh : c.val.toNat ≤ 90 := UInt32.le_iff_toNat_le.1 hupper.2
    have hnat : (c.val.toNat + 32) % 2 ^ 32 = 40 := congrArg UInt32.toNat hval
    omega
  · exact h

theorem startsAddress_of_not_mem {s : Text} (h : '(' ∉ s) : startsAddress s = false := by
  rw [startsAddress, Bool.and_eq_false_iff]
  left
  rw [← Bool.not_eq_true, List.isPrefixOf_iff_prefix]
  intro hp
  obtain ⟨c, hc, hlower⟩ := List.mem_map.1 (hp.subset (a := '(') (by simp))
  exact h (eq_of_toLower_eq_bracket hlower ▸ hc)

theorem closes_of_plain {x : Text} (hslash : '/' ∉ x) (hbracket : '(' ∉ x)
    (h : ∀ c ∈ x, isInert c = true) : closes none [] x = true := by
  induction x with
  | nil => rfl
  | cons c r ih =>
    have hinert := h c List.mem_cons_self
    rw [isInert, Bool.and_eq_true, Bool.not_eq_true', Option.isNone_iff_eq_none] at hinert
    have hcomment : startsComment (c :: r) = false := by
      have hc : '/' ≠ c := fun heq => hslash (heq ▸ List.mem_cons_self)
      simp [startsComment, List.isPrefixOf, hc]
    rw [closes, hcomment, startsAddress_of_not_mem hbracket, hinert.1, hinert.2]
    exact ih (fun hmem => hslash (List.mem_cons_of_mem _ hmem))
      (fun hmem => hbracket (List.mem_cons_of_mem _ hmem))
      fun a ha => h a (List.mem_cons_of_mem _ ha)

namespace IsProperty

variable {x : Text} (h : IsProperty x)

include h

theorem not_mem {c : Char} (hc : propertyMarks.contains c = true) : c ∉ x := fun hmem =>
  h.plain c hmem (List.contains_iff_mem.1 hc)

theorem closes : Text.closes none [] x = true := by
  refine closes_of_plain (h.not_mem rfl) (h.not_mem rfl) fun c hc => isInert_iff.2 ?_
  have hplain := h.plain c hc
  simp only [propertyMarks, List.mem_cons, not_or] at hplain ⊢
  tauto

theorem isClosed : IsClosed x :=
  isClosed_of_closes h.ne_nil h.head h.last (h.not_mem rfl) h.closes

/-- A property is read in front of its colon as it is alone. -/
theorem parted {w : Text} (hw : Breaks w) : Token.Parted (Token.ofText x) w := by
  rw [Token.Parted, Token.textOf_ofText]
  exact (ofText_of_closes (h.not_mem rfl) h.closes).2.2 w hw

theorem opens : Opens x := by
  obtain ⟨c, r, rfl⟩ := List.exists_cons_of_ne_nil h.ne_nil
  have hne : ∀ a, propertyMarks.contains a = true → c ≠ a := fun a ha heq =>
    h.not_mem ha (heq ▸ List.mem_cons_self)
  exact ⟨c, r, rfl, h.head c rfl, hne _ rfl, hne _ rfl, fun heq => absurd heq (hne _ rfl),
    fun heq => absurd heq (hne _ rfl)⟩

theorem colon_not_mem : .colon ∉ Token.ofText x := by
  intro hmem
  refine h.not_mem (c := ':') rfl ?_
  rw [← Token.textOf_ofText x]
  exact List.mem_flatMap.2 ⟨_, hmem, List.mem_singleton.2 rfl⟩

end IsProperty

end Text

end HostSheet
