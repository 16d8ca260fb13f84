import HostSheet.Toml.Value

set_option autoImplicit false

/-!
# Reading strings, numbers and dates

Every reader takes its piece off the front of a text and gives back what follows it, or
refuses the text.  What is refused is not said, since a document is either read or not.
-/

namespace HostSheet.Toml

/-- A reader of a piece at the front of a text. -/
abbrev Read (α : Type) := Text → Option (α × Text)

/-! ## Characters -/

/-- The blanks within a line. -/
def isBlank (c : Char) : Bool := c == ' ' || c == '\t'

/-- The characters that may stand in a comment or a string: all but controls, of which
only the tabulator may. -/
def isPlain (c : Char) : Bool := c == '\t' || (0x20 ≤ c.toNat && c.toNat != 0x7F)

/-- The characters of a key without quotes. -/
def isBareKey (c : Char) : Bool := c.isAlphanum || c == '_' || c == '-'

/-- The value of a hexadecimal digit of either case. -/
def hexDigit? (c : Char) : Option Nat :=
  if c.isDigit then some (c.toNat - 48)
  else if 'a' ≤ c ∧ c ≤ 'f' then some (c.toNat - 87)
  else if 'A' ≤ c ∧ c ≤ 'F' then some (c.toNat - 55)
  else none

/-- The character with the code point that these hexadecimal digits spell, if there is
one. -/
def codePoint? (digits : List Char) : Option Char := do
  let ds ← digits.mapM hexDigit?
  let n := ds.foldl (fun n d => 16 * n + d) 0
  if n.isValidChar then some (Char.ofNat n) else none

/-- The character for a letter after a backslash. -/
def escaped? : Char → Option Char
  | 'b' => some '\x08'
  | 't' => some '\t'
  | 'n' => some '\n'
  | 'f' => some '\x0C'
  | 'r' => some '\r'
  | '"' => some '"'
  | '\\' => some '\\'
  | _ => none

/-- Put a character in front of what was read. -/
def cons? (c : Option Char) (r : Option (Text × Text)) : Option (Text × Text) := do
  let c ← c
  let (s, rest) ← r
  return (c :: s, rest)

/-! ## Strings -/

/-- The rest of a string on one line that holds escapes. -/
def basicRest : Read Text
  | [] => none
  | '"' :: r => some ([], r)
  | '\\' :: 'u' :: a :: b :: c :: d :: r => cons? (codePoint? [a, b, c, d]) (basicRest r)
  | '\\' :: 'U' :: a :: b :: c :: d :: e :: f :: g :: h :: r =>
    cons? (codePoint? [a, b, c, d, e, f, g, h]) (basicRest r)
  | '\\' :: c :: r => cons? (escaped? c) (basicRest r)
  | c :: r => if isPlain c then cons? (some c) (basicRest r) else none

/-- The rest of a string on one line that holds no escapes. -/
def literalRest : Read Text
  | [] => none
  | '\'' :: r => some ([], r)
  | c :: r => if isPlain c then cons? (some c) (literalRest r) else none

/-- Whether nothing but blanks stands in front of the end of the line. -/
def endsLine (s : Text) : Bool :=
  match s.dropWhile isBlank with
  | '\n' :: _ => true
  | '\r' :: '\n' :: _ => true
  | _ => false

/-- After three quotes: up to two more of them belong to the string. -/
def closeLong (quote : Char) (r : Text) : Text × Text :=
  let extra := (r.takeWhile (· == quote)).take 2
  (extra, r.drop extra.length)

/-- The rest of a string over several lines that holds escapes.  A backslash at the end of
a line takes away all white space up to the next character; `skipping` says whether the
text stands in such white space.  Both kinds of line end are read as a line feed. -/
def longBasicRest (skipping : Bool) : Read Text
  | [] => none
  | '"' :: '"' :: '"' :: r => some (closeLong '"' r)
  | '\\' :: 'u' :: a :: b :: c :: d :: r =>
    cons? (codePoint? [a, b, c, d]) (longBasicRest false r)
  | '\\' :: 'U' :: a :: b :: c :: d :: e :: f :: g :: h :: r =>
    cons? (codePoint? [a, b, c, d, e, f, g, h]) (longBasicRest false r)
  | '\r' :: '\n' :: r =>
    if skipping then longBasicRest true r else cons? (some '\n') (longBasicRest false r)
  | '\n' :: r =>
    if skipping then longBasicRest true r else cons? (some '\n') (longBasicRest false r)
  | '\\' :: c :: r =>
    if endsLine (c :: r) then longBasicRest true r
    else cons? (escaped? c) (longBasicRest false r)
  | c :: r =>
    if skipping ∧ isBlank c then longBasicRest true r
    else if isPlain c then cons? (some c) (longBasicRest false r)
    else none

/-- The rest of a string over several lines that holds no escapes. -/
def longLiteralRest : Read Text
  | [] => none
  | '\'' :: '\'' :: '\'' :: r => some (closeLong '\'' r)
  | '\r' :: '\n' :: r => cons? (some '\n') (longLiteralRest r)
  | '\n' :: r => cons? (some '\n') (longLiteralRest r)
  | c :: r => if isPlain c then cons? (some c) (longLiteralRest r) else none

/-- A line end directly after the opening quotes is no part of the string. -/
def dropLineEnd : Text → Text
  | '\n' :: r => r
  | '\r' :: '\n' :: r => r
  | s => s

/-- A string on one line. -/
def readShortString : Read Text
  | '"' :: r => basicRest r
  | '\'' :: r => literalRest r
  | _ => none

/-- A string. -/
def readString : Read Text
  | '"' :: '"' :: '"' :: r => longBasicRest false (dropLineEnd r)
  | '\'' :: '\'' :: '\'' :: r => longLiteralRest (dropLineEnd r)
  | s => readShortString s

/-! ## Numbers -/

/-- Digits, single underscores between them left out. -/
def digitsRest (isDigit : Char → Bool) : Text → Text × Text
  | [] => ([], [])
  | ['_'] => ([], ['_'])
  | '_' :: c :: r =>
    if isDigit c then (c :: (digitsRest isDigit r).1, (digitsRest isDigit r).2)
    else ([], '_' :: c :: r)
  | c :: r =>
    if isDigit c then (c :: (digitsRest isDigit r).1, (digitsRest isDigit r).2)
    else ([], c :: r)

/-- At least one digit. -/
def readDigits (isDigit : Char → Bool) : Read Text
  | [] => none
  | c :: r =>
    if isDigit c then some (c :: (digitsRest isDigit r).1, (digitsRest isDigit r).2) else none

/-- The number that digits spell. -/
def numeral (base : Nat) (digits : Text) : Nat :=
  digits.foldl (fun n c => base * n + (hexDigit? c).getD 0) 0

/-- A sign, if there is one: whether it is a minus. -/
def readSign : Text → Bool × Text
  | '+' :: r => (false, r)
  | '-' :: r => (true, r)
  | s => (false, s)

/-- The digits in front of the point: a zero alone, or digits that start with no zero. -/
def readWhole : Read Text
  | '0' :: r => some (['0'], r)
  | s => readDigits Char.isDigit s

/-- The digits after the point. -/
def readFraction : Text → Option (Text × Text)
  | '.' :: r => readDigits Char.isDigit r
  | _ => none

/-- The exponent after an `e`. -/
def readExponent : Text → Option (Int × Text)
  | c :: r => do
    if c ≠ 'e' ∧ c ≠ 'E' then none
    let (negative, r) := readSign r
    let (digits, r) ← readDigits Char.isDigit r
    let n := numeral 10 digits
    return (if negative then -n else n, r)
  | [] => none

/-- The size of a number that was rounded, if it did not turn out too large.  One too large
is refused above zero; below zero it is infinite. -/
def magnitude? (negative : Bool) : Option Decimal.Binary64 → Option Magnitude
  | some x => some (.finite x)
  | none => if negative then some .infinite else none

/-- A number with a point or an exponent. -/
def readDecimal : Read Value := fun s => do
  let (negative, s) := readSign s
  let (whole, s) ← readWhole s
  let ((places, exponent), s) ←
    match readFraction s with
    | some (places, s) =>
      match readExponent s with
      | some (e, s) => some ((places, e), s)
      | none => some ((places, 0), s)
    | none => (readExponent s).map fun p => (([], p.1), p.2)
  let rounded :=
    Decimal.Binary64.ofDecimal? (numeral 10 (whole ++ places)) (exponent - places.length)
  return (.float negative (← magnitude? negative rounded), s)

/-- `inf` or `nan`, with or without a sign. -/
def readNamedNumber : Read Value := fun s =>
  match readSign s with
  | (negative, 'i' :: 'n' :: 'f' :: r) => some (.float negative .infinite, r)
  | (negative, 'n' :: 'a' :: 'n' :: r) => some (.float negative .notANumber, r)
  | _ => none

/-- A whole number, if it fits into 64 bits with its sign. -/
def fit? (n : Int) : Option Value :=
  if Int64.minValue.toInt ≤ n ∧ n ≤ Int64.maxValue.toInt then some (.integer n) else none

/-- A whole number in base ten, with or without a sign, or in base sixteen, eight or two. -/
def readInteger : Read Value
  | '0' :: 'x' :: r => radix 16 (fun c => (hexDigit? c).isSome) r
  | '0' :: 'o' :: r => radix 8 (fun c => '0' ≤ c ∧ c ≤ '7') r
  | '0' :: 'b' :: r => radix 2 (fun c => c = '0' ∨ c = '1') r
  | s => do
    let (negative, s) := readSign s
    let (digits, s) ← readWhole s
    let n : Int := numeral 10 digits
    return (← fit? (if negative then -n else n), s)
where
  radix (base : Nat) (isDigit : Char → Bool) (r : Text) : Option (Value × Text) := do
    let (digits, r) ← readDigits isDigit r
    return (← fit? (numeral base digits), r)

/-! ## Dates -/

/-- Exactly `n` digits whose number lies in a range. -/
def readField (n low high : Nat) : Read Nat := fun s =>
  let digits := s.take n
  let value := numeral 10 digits
  if digits.length = n ∧ digits.all Char.isDigit ∧ low ≤ value ∧ value ≤ high then
    some (value, s.drop n)
  else none

/-- One given character. -/
def readChar (c : Char) : Text → Option Text
  | [] => none
  | d :: r => if c = d then some r else none

/-- How many days a month has. -/
def daysIn (year month : Nat) : Nat :=
  if month = 2 then
    if year % 4 = 0 ∧ (year % 100 ≠ 0 ∨ year % 400 = 0) then 29 else 28
  else if month = 4 ∨ month = 6 ∨ month = 9 ∨ month = 11 then 30
  else 31

/-- A day of the calendar; what follows it. -/
def afterDay? (s : Text) : Option Text := do
  let (year, s) ← readField 4 0 9999 s
  let s ← readChar '-' s
  let (month, s) ← readField 2 1 12 s
  let s ← readChar '-' s
  let (_, s) ← readField 2 1 (daysIn year month) s
  return s

/-- The places after the seconds, if there are any; what follows them. -/
def afterPlaces : Text → Text
  | '.' :: c :: r => if c.isDigit then r.dropWhile Char.isDigit else '.' :: c :: r
  | s => s

/-- A time of day; what follows it. -/
def afterTime? (s : Text) : Option Text := do
  let (_, s) ← readField 2 0 23 s
  let s ← readChar ':' s
  let (_, s) ← readField 2 0 59 s
  let s ← readChar ':' s
  let (_, s) ← readField 2 0 60 s
  return afterPlaces s

/-- A distance from universal time, if there is one; what follows it. -/
def afterOffset : Text → Text
  | [] => []
  | c :: r =>
    if c = 'Z' ∨ c = 'z' then r
    else if c = '+' ∨ c = '-' then
      (do
        let (_, s) ← readField 2 0 23 r
        let s ← readChar ':' s
        let (_, s) ← readField 2 0 59 s
        return s).getD (c :: r)
    else c :: r

/-- The time after a day, if there is one; what follows it. -/
def afterDayTime : Text → Text
  | [] => []
  | c :: r =>
    if c = 'T' ∨ c = 't' ∨ c = ' ' then ((afterTime? r).map afterOffset).getD (c :: r)
    else c :: r

/-- A day, a day with a time, or a time. -/
def readDate : Read Value := fun s => do
  let rest ← ((afterDay? s).map afterDayTime).or (afterTime? s)
  return (.date (s.take (s.length - rest.length)), rest)

/-! ## All of them -/

/-- A value that holds no other values. -/
def readScalar : Read Value
  | [] => none
  | 't' :: 'r' :: 'u' :: 'e' :: r => some (.boolean true, r)
  | 'f' :: 'a' :: 'l' :: 's' :: 'e' :: r => some (.boolean false, r)
  | c :: r =>
    if c = '"' ∨ c = '\'' then (readString (c :: r)).map fun p => (.string p.1, p.2)
    else
      (readDate (c :: r)).or <|
      (readDecimal (c :: r)).or <|
      (readNamedNumber (c :: r)).or <|
      readInteger (c :: r)

end HostSheet.Toml
