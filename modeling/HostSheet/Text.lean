set_option autoImplicit false

/-!
# Text

Stylesheets, selectors and names are lists of characters.  Everything that cuts a
text into pieces does it here, and every cut comes with the law that nothing is
lost: the pieces, put back together, are the text.
-/

namespace HostSheet

/-- A text: its characters in order. -/
abbrev Text := List Char

namespace Text

/-! ## White space

The wide class, the one the selector patterns and trimming use.  The class that
separates tokens is narrower and lives with the syntax. -/

/-- The characters with the Unicode property `White_Space`. -/
def isSpace (c : Char) : Bool :=
  let n := c.toNat
  (0x09 ≤ n && n ≤ 0x0D) || n == 0x20 || n == 0x85 || n == 0xA0 || n == 0x1680 ||
    (0x2000 ≤ n && n ≤ 0x200A) || n == 0x2028 || n == 0x2029 || n == 0x202F ||
    n == 0x205F || n == 0x3000

/-! ## Cutting at the ends -/

/-- The text without its leading characters in `p`. -/
def dropStart (p : Char → Bool) (s : Text) : Text := s.dropWhile p

/-- The text without its trailing characters in `p`. -/
def dropEnd (p : Char → Bool) (s : Text) : Text := (s.reverse.dropWhile p).reverse

/-- The trailing characters in `p`. -/
def takeEnd (p : Char → Bool) (s : Text) : Text := (s.reverse.takeWhile p).reverse

theorem dropEnd_append_takeEnd (p : Char → Bool) (s : Text) :
    dropEnd p s ++ takeEnd p s = s := by
  rw [dropEnd, takeEnd, ← List.reverse_append, List.takeWhile_append_dropWhile,
    List.reverse_reverse]

/-- The text without white space at either end. -/
def trim (s : Text) : Text := dropEnd isSpace (dropStart isSpace s)

/-- The leading white space and what follows it, if there is any. -/
def splitSpace? (s : Text) : Option (Text × Text) :=
  match s.takeWhile isSpace with
  | [] => none
  | c :: space => some (c :: space, s.dropWhile isSpace)

theorem append_of_splitSpace? {s space rest : Text}
    (h : splitSpace? s = some (space, rest)) : space ++ rest = s := by
  unfold splitSpace? at h
  split at h
  · simp at h
  · rename_i hs
    obtain ⟨rfl, rfl⟩ := by simpa using h
    rw [← hs, List.takeWhile_append_dropWhile]

/-! ## Cutting at a given text -/

/-- What follows `lead` at the front of a text, if `lead` stands there. -/
def after? : Text → Text → Option Text
  | [], s => some s
  | _ :: _, [] => none
  | a :: lead, c :: s => if a = c then after? lead s else none

theorem after?_eq_some_iff {lead s rest : Text} :
    after? lead s = some rest ↔ s = lead ++ rest := by
  induction lead generalizing s with
  | nil => simp [after?]
  | cons a lead ih =>
    cases s with
    | nil => simp [after?]
    | cons c s =>
      by_cases h : a = c
      · subst h; simp [after?, ih]
      · simp [after?, h, Ne.symm h]

/-- The text before the first `stop`, and the text after it. -/
def upTo? (stop : Char) : Text → Option (Text × Text)
  | [] => none
  | c :: r => if c = stop then some ([], r) else (upTo? stop r).map fun p => (c :: p.1, p.2)

theorem upTo?_eq_some_iff {stop : Char} {s a b : Text} :
    upTo? stop s = some (a, b) ↔ s = a ++ stop :: b ∧ stop ∉ a := by
  induction s generalizing a with
  | nil => simp [upTo?]
  | cons c r ih =>
    by_cases h : c = stop
    · subst h
      cases a with
      | nil => simp [upTo?, eq_comm]
      | cons x a => simp only [upTo?, if_true]; grind
    · cases a with
      | nil => simp [upTo?, h]
      | cons x a =>
        simp only [upTo?, h, if_false, Option.map_eq_some_iff, Prod.exists, Prod.mk.injEq]
        constructor
        · rintro ⟨u, v, huv, hxu, rfl⟩
          obtain ⟨rfl, rfl⟩ := List.cons.inj hxu
          obtain ⟨rfl, hn⟩ := ih.1 huv
          exact ⟨rfl, by simp [hn, Ne.symm h]⟩
        · rintro ⟨he, hn⟩
          obtain ⟨rfl, rfl⟩ := List.cons.inj he
          exact ⟨a, b, ih.2 ⟨rfl, fun hm => hn (List.mem_cons_of_mem _ hm)⟩, rfl, rfl⟩

/-- Whether `needle` occurs somewhere in a text. -/
def occursIn (needle : Text) : Text → Bool
  | [] => needle.isEmpty
  | c :: r => needle.isPrefixOf (c :: r) || occursIn needle r

theorem occursIn_iff {needle s : Text} : occursIn needle s = true ↔ needle <:+: s := by
  induction s with
  | nil => cases needle <;> simp [occursIn]
  | cons c r ih =>
    rw [occursIn, Bool.or_eq_true, ih, List.isPrefixOf_iff_prefix, List.infix_cons_iff]

/-! ## Bytes -/

/-- The UTF-8 bytes of a text. -/
def utf8 (s : Text) : List UInt8 := s.flatMap String.utf8EncodeChar

end Text

end HostSheet
