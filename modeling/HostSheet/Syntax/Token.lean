import HostSheet.Syntax.Name

set_option autoImplicit false

/-!
# Tokens

A stylesheet text falls into tokens.  Only the tokens that can end a statement, open
or close a bracket, or start an at-rule are told apart; every other run of characters
that has to stay together is `Token.other`.

`Token.read` takes one token off a text, `Token.ofText` all of them, and a token keeps
its characters: the texts of the tokens, one after the other, are the text
(`textOf_ofText`).
-/

namespace HostSheet.Syntax

/-- The three kinds of brackets. -/
inductive Bracket where
  | round
  | square
  | curly
  deriving DecidableEq, Repr

namespace Bracket

def opening : Bracket → Char
  | round => '('
  | square => '['
  | curly => '\x7b'

def closing : Bracket → Char
  | round => ')'
  | square => ']'
  | curly => '\x7d'

end Bracket

/-- A token, with the characters it was read from. -/
inductive Token where
  /-- One blank.  A run of blanks is as many tokens. -/
  | blank (c : Char)
  /-- A comment, without its marks.  One that is not closed runs to the end. -/
  | comment (body : Text) (closed : Bool)
  | semicolon
  | colon
  /-- An opening bracket.  A name directly in front of a round one belongs to it. -/
  | opener (name : Text) (b : Bracket)
  | closer (b : Bracket)
  /-- An at sign and a name. -/
  | atName (name : Text)
  /-- A string with its quotes.  One that is not closed runs to the end of its line. -/
  | quoted (raw : Text)
  | other (raw : Text)
  deriving DecidableEq, Repr

namespace Token

/-- The characters of a token. -/
def text : Token → Text
  | blank c => [c]
  | comment body true => '/' :: '*' :: body ++ ['*', '/']
  | comment body false => '/' :: '*' :: body
  | semicolon => [';']
  | colon => [':']
  | opener name b => name ++ [b.opening]
  | closer b => [b.closing]
  | atName name => '@' :: name
  | quoted raw => raw
  | other raw => raw

/-- The characters of tokens that stand one after the other. -/
def textOf (ts : List Token) : Text := ts.flatMap text

@[simp] theorem textOf_nil : textOf [] = [] := rfl

@[simp] theorem textOf_cons (t : Token) (ts : List Token) :
    textOf (t :: ts) = t.text ++ textOf ts := by simp [textOf]

@[simp] theorem textOf_append (ts us : List Token) :
    textOf (ts ++ us) = textOf ts ++ textOf us := by simp [textOf]

/-! ## Strings

A string ends after its quote, or in front of the end of its line.  A backslash takes
the next character along, also a quote and the end of a line. -/

/-- Where a reader stands in a string. -/
inductive StringState where
  | body
  | escape (e : Escape)
  | done
  deriving DecidableEq, Repr

def stringStep (quote : Char) (c : Char) : Option StringState :=
  if c = quote then some .done
  else if isNewline c then none
  else if c = '\\' then some (.escape .opened)
  else some .body

/-- Takes the characters of a string after its first quote. -/
def stringMachine (quote : Char) : Machine StringState := fun state c _ =>
  match state with
  | .done => none
  | .body => stringStep quote c
  | .escape e =>
    match Escape.next? (some e) c with
    | some (some e) => some (.escape e)
    | some none => some .body
    | none => stringStep quote c

/-! ## Comments -/

/-- The body of a comment after its opening mark, and what follows its closing mark
if there is one. -/
def splitComment : Text → Text × Option Text
  | [] => ([], none)
  | '*' :: '/' :: r => ([], some r)
  | c :: r => (c :: (splitComment r).1, (splitComment r).2)

/-- Nothing is lost but the closing mark. -/
theorem splitComment_append (s : Text) :
    (match splitComment s with
      | (body, some rest) => body ++ '*' :: '/' :: rest
      | (body, none) => body) = s := by
  fun_induction splitComment s with
  | case1 => rfl
  | case2 r => rfl
  | case3 c r hne ih =>
    revert ih
    generalize splitComment r = p
    obtain ⟨body, rest⟩ := p
    cases rest <;> (intro ih; simpa using ih)

/-! ## Addresses

After `url(` the address may stand without quotes, and then it is one token up to the
closing bracket.  A quote, an opening bracket, a control character or a blank inside
spoils the address; a spoiled one still runs to the next closing bracket. -/

/-- Where a reader stands in an address. -/
inductive AddressState where
  | lead
  | body
  | escape (e : Escape)
  | trail
  | spoiled
  /-- After a backslash in a spoiled address. -/
  | spoiledEscape
  | done
  deriving DecidableEq, Repr

/-- The control characters that spoil an address. -/
def isAddressControl (c : Char) : Bool :=
  let n := c.toNat
  (0x01 ≤ n && n ≤ 0x08) || n == 0x0B || (0x0E ≤ n && n ≤ 0x1F) || n == 0x7F

def addressStep (c : Char) (r : Text) : AddressState :=
  if isBlank c then .trail
  else if c = ')' then .done
  else if c = '"' ∨ c = '\'' ∨ c = '(' ∨ isAddressControl c then .spoiled
  else if c = '\\' then (if startsWithNewline r then .spoiled else .escape .opened)
  else .body

/-- Takes the characters of an address after `url(`. -/
def addressMachine : Machine AddressState := fun state c r =>
  match state with
  | .done => none
  | .lead => some (if isBlank c then .lead else addressStep c r)
  | .body => some (addressStep c r)
  | .escape e =>
    match Escape.next? (some e) c with
    | some (some e) => some (.escape e)
    | some none => some .body
    | none => some (addressStep c r)
  | .trail => some (if isBlank c then .trail else if c = ')' then .done else .spoiled)
  | .spoiled => some (if c = ')' then .done else if c = '\\' then .spoiledEscape else .spoiled)
  | .spoiledEscape => some .spoiled

/-- Whether an argument starts with a quote, blanks aside. -/
def startsQuoted : Text → Bool
  | [] => false
  | c :: r => if isBlank c then startsQuoted r else c == '"' || c == '\''

/-! ## Numbers -/

/-- Where a reader stands in a number. -/
inductive NumberState where
  | integer
  | fraction
  | exponentSign
  | exponent
  deriving DecidableEq, Repr

/-- Whether a text starts with a digit. -/
def startsWithDigit : Text → Bool
  | [] => false
  | c :: _ => c.isDigit

/-- Whether the text after an `e` makes it an exponent: digits, with or without a sign. -/
def startsExponent : Text → Bool
  | '+' :: r => startsWithDigit r
  | '-' :: r => startsWithDigit r
  | s => startsWithDigit s

/-- Whether a number starts here: digits or a point and digits, with or without a sign. -/
def startsNumber : Text → Bool
  | '+' :: '.' :: r => startsWithDigit r
  | '-' :: '.' :: r => startsWithDigit r
  | '+' :: r => startsWithDigit r
  | '-' :: r => startsWithDigit r
  | '.' :: r => startsWithDigit r
  | s => startsWithDigit s

/-- The state after the first character of a number. -/
def NumberState.ofFirst (c : Char) : NumberState := if c = '.' then .fraction else .integer

/-- Takes the characters of a number after its first one, unit apart. -/
def numberMachine : Machine NumberState := fun state c r =>
  match state with
  | .integer =>
    if c.isDigit then some .integer
    else if c = '.' ∧ startsWithDigit r then some .fraction
    else if (c = 'e' ∨ c = 'E') ∧ startsExponent r then some .exponentSign
    else none
  | .fraction =>
    if c.isDigit then some .fraction
    else if (c = 'e' ∨ c = 'E') ∧ startsExponent r then some .exponentSign
    else none
  | .exponentSign => some .exponent
  | .exponent => if c.isDigit then some .exponent else none

/-- The unit of a number: a percent sign, a name, or nothing. -/
def readUnit : Text → Text × Text
  | '%' :: r => (['%'], r)
  | s => if startsName s then ((Name.read s).taken, (Name.read s).rest) else ([], s)

theorem readUnit_append (s : Text) : (readUnit s).1 ++ (readUnit s).2 = s := by
  unfold readUnit
  split
  · rfl
  · split
    · exact Reading.taken_append_rest _ _ _
    · rfl

/-! ## One token -/

/-- The comment whose opening mark was read. -/
def readComment (r : Text) : Token × Text :=
  match splitComment r with
  | (body, some rest) => (.comment body true, rest)
  | (body, none) => (.comment body false, [])

/-- The address whose name and bracket were read, or the bracket alone if the argument
is a string. -/
def readArgument (name r : Text) : Token × Text :=
  if Name.spells ['u', 'r', 'l'] name ∧ !startsQuoted r then
    let address := Reading.of addressMachine .lead r
    (.other (name ++ '(' :: address.taken), address.rest)
  else (.opener name .round, r)

/-- A name that starts with `c`, and the bracket directly after it. -/
def readNamed (c : Char) (r : Text) : Token × Text :=
  let name := Name.readAfter c r
  match name.rest with
  | '(' :: rest => readArgument (c :: name.taken) rest
  | rest => (.other (c :: name.taken), rest)

/-- The token of a mark that stands for itself. -/
def ofMark? : Char → Option Token
  | ';' => some .semicolon
  | ':' => some .colon
  | '(' => some (.opener [] .round)
  | '[' => some (.opener [] .square)
  | '\x7b' => some (.opener [] .curly)
  | ')' => some (.closer .round)
  | ']' => some (.closer .square)
  | '\x7d' => some (.closer .curly)
  | _ => none

/-- The longest sign that starts with this character: an HTML comment mark, a comparison
as in `~=`, or the character alone. -/
def readSign (c : Char) (r : Text) : Token × Text :=
  match c, r with
  | '<', '!' :: '-' :: '-' :: r => (.other ['<', '!', '-', '-'], r)
  | '-', '-' :: '>' :: r => (.other ['-', '-', '>'], r)
  | '~', '=' :: r => (.other ['~', '='], r)
  | '|', '=' :: r => (.other ['|', '='], r)
  | '^', '=' :: r => (.other ['^', '='], r)
  | '$', '=' :: r => (.other ['$', '='], r)
  | '*', '=' :: r => (.other ['*', '='], r)
  | c, r => (.other [c], r)

/-- A mark that is no part of a longer token: a comment, a bracket, a separator or a
sign. -/
def readMark (c : Char) (r : Text) : Token × Text :=
  match c, r with
  | '/', '*' :: r => readComment r
  | c, r =>
    match ofMark? c with
    | some t => (t, r)
    | none => readSign c r

/-- Whether a closing HTML comment mark starts here. -/
def startsDashArrow (s : Text) : Bool := ['-', '-', '>'].isPrefixOf s

/-- The token at the front of a text that starts with `c`, and what follows it. -/
def read (c : Char) (r : Text) : Token × Text :=
  if isBlank c then (.blank c, r)
  else if c = '"' ∨ c = '\'' then
    let string := Reading.of (stringMachine c) .body r
    (.quoted (c :: string.taken), string.rest)
  else if startsNumber (c :: r) then
    let number := Reading.of numberMachine (.ofFirst c) r
    (.other (c :: number.taken ++ (readUnit number.rest).1), (readUnit number.rest).2)
  else if startsDashArrow (c :: r) then readSign c r
  else if startsName (c :: r) then readNamed c r
  else if c = '@' ∧ startsName r then (.atName (Name.read r).taken, (Name.read r).rest)
  else if c = '#' then (.other ('#' :: (Name.read r).taken), (Name.read r).rest)
  else readMark c r

/-! ## Nothing is lost -/

/-- What a reader that was given `c :: r` must answer: a token whose characters, in front
of those left, are the given ones, and of which there is at least one. -/
def Splits (c : Char) (r : Text) (p : Token × Text) : Prop :=
  ∃ t, p.1.text = c :: t ∧ t ++ p.2 = r

theorem splits_readComment (r : Text) : Splits '/' ('*' :: r) (readComment r) := by
  have h := splitComment_append r
  unfold readComment
  split <;> rename_i hs <;> rw [hs] at h
  · exact ⟨'*' :: _ ++ ['*', '/'], rfl, by simpa using h⟩
  · exact ⟨'*' :: _, rfl, by simpa using h⟩

theorem splits_readArgument (c : Char) (name r : Text) :
    Splits c (name ++ '(' :: r) (readArgument (c :: name) r) := by
  unfold readArgument
  split
  · exact ⟨_, rfl, by simp [Reading.taken_append_rest]⟩
  · exact ⟨name ++ ['('], by simp [text, Bracket.opening], by simp⟩

theorem splits_readNamed (c : Char) (r : Text) : Splits c r (readNamed c r) := by
  have h : (Name.readAfter c r).taken ++ (Name.readAfter c r).rest = r :=
    Reading.taken_append_rest _ _ _
  unfold readNamed
  dsimp only
  split
  · rename_i rest hr
    have hs := splits_readArgument c (Name.readAfter c r).taken rest
    rwa [← hr, h] at hs
  · exact ⟨_, rfl, h⟩

theorem splits_of_ofMark? {c : Char} {t : Token} (h : ofMark? c = some t) (r : Text) :
    Splits c r (t, r) := by
  refine ⟨[], ?_, rfl⟩
  unfold ofMark? at h
  split at h <;> simp_all <;> subst h <;> rfl

theorem splits_readSign (c : Char) (r : Text) : Splits c r (readSign c r) := by
  unfold readSign
  split <;> exact ⟨_, rfl, rfl⟩

theorem splits_readMark (c : Char) (r : Text) : Splits c r (readMark c r) := by
  unfold readMark
  split
  · exact splits_readComment _
  · split
    · rename_i h
      exact splits_of_ofMark? h _
    · exact splits_readSign _ _

theorem splits_read (c : Char) (r : Text) : Splits c r (read c r) := by
  unfold read
  split
  · exact ⟨[], rfl, rfl⟩
  split
  · exact ⟨_, rfl, Reading.taken_append_rest _ _ _⟩
  split
  · exact ⟨_, rfl, by simp [readUnit_append, Reading.taken_append_rest]⟩
  split
  · exact splits_readSign c r
  split
  · exact splits_readNamed c r
  split
  · rename_i h
    exact ⟨_, by rw [h.1]; rfl, Reading.taken_append_rest _ _ _⟩
  split
  · rename_i h
    exact ⟨_, by rw [h]; rfl, Reading.taken_append_rest _ _ _⟩
  · exact splits_readMark c r

theorem length_read_le (c : Char) (r : Text) : (read c r).2.length ≤ r.length := by
  obtain ⟨t, _, h⟩ := splits_read c r
  have hl := congrArg List.length h
  rw [List.length_append] at hl
  omega

/-! ## All tokens -/

/-- The tokens of a text. -/
def ofText : Text → List Token
  | [] => []
  | c :: r => (read c r).1 :: ofText (read c r).2
termination_by s => s.length
decreasing_by exact Nat.lt_succ_of_le (length_read_le c r)

/-- The texts of the tokens, one after the other, are the text. -/
theorem textOf_ofText (s : Text) : textOf (ofText s) = s := by
  fun_induction ofText s with
  | case1 => rfl
  | case2 c r ih =>
    obtain ⟨t, ht, h⟩ := splits_read c r
    rw [textOf_cons, ih, ht, List.cons_append, h]

end Token

end HostSheet.Syntax
