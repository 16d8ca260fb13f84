import HostSheet.Toml.Scalar
import HostSheet.Toml.Table

set_option autoImplicit false

/-!
# Reading a document

A document is read line by line into a table: a header opens a table, every other line
gives a key of the table opened last its value.
-/

namespace HostSheet.Toml

/-- How deep lists and tables in braces may nest, and how many parts a key may have. -/
def depthLimit : Nat := 79

/-! ## Keys -/

/-- The text without the blanks at its front. -/
def skipBlanks (s : Text) : Text := s.dropWhile isBlank

/-- One part of a key: a string on one line, or characters that need no quotes. -/
def readSimpleKey : Read Text
  | [] => none
  | c :: r =>
    if c = '"' ∨ c = '\'' then readShortString (c :: r)
    else if isBareKey c then some (c :: r.takeWhile isBareKey, r.dropWhile isBareKey)
    else none

/-- The parts of a key, points between them, with blanks around each.  A text of `n`
characters has fewer than `n + 1` parts. -/
def readKeyParts : Nat → Read (List Text)
  | 0, _ => none
  | n + 1, s => do
    let (part, s) ← readSimpleKey (skipBlanks s)
    match skipBlanks s with
    | '.' :: s => do
      let (parts, s) ← readKeyParts n s
      return (part :: parts, s)
    | s => return ([part], s)

/-- A key: the parts in front of its last one, and its last one. -/
def readKey : Read (List Text × Text) := fun s => do
  let (parts, s) ← readKeyParts (s.length + 1) s
  if depthLimit < parts.length then none
  else return ((parts.dropLast, ← parts.getLast?), s)

/-! ## Lists and tables in braces -/

/-- What follows blanks, line ends and comments.  `inComment` says whether the text stands
in a comment. -/
def skipTrivia (inComment : Bool) : Text → Option Text
  | [] => some []
  | '\r' :: '\n' :: r => skipTrivia false r
  | '\n' :: r => skipTrivia false r
  | c :: r =>
    if inComment then (if isPlain c then skipTrivia true r else none)
    else if isBlank c then skipTrivia false r
    else if c = '#' then skipTrivia true r
    else some (c :: r)

/-- The items of a list after its opening bracket.  The last may have a comma, too. -/
def readItems (item : Read Value) : Nat → Read (List Value)
  | 0, _ => none
  | n + 1, s => do
    match ← skipTrivia false s with
    | ']' :: s => return ([], s)
    | s => do
      let (v, s) ← item s
      match ← skipTrivia false s with
      | ',' :: s => do
        let (vs, s) ← readItems item n s
        return (v :: vs, s)
      | ']' :: s => return ([v], s)
      | _ => none

/-- The entries of a table in braces, from its first key on. -/
def readPairs (item : Read Value) : Nat → Entries → Read Entries
  | 0, _, _ => none
  | n + 1, es, s => do
    let ((keys, key), s) ← readKey s
    let s ← readChar '=' s
    let (v, s) ← item (skipBlanks s)
    let es ← Entries.assign keys key v .inline es
    match skipBlanks s with
    | ',' :: s => readPairs item n es s
    | '\x7d' :: s => return (es, s)
    | _ => none

/-- A value that holds others, whose lists and tables nest `depth` deep at most. -/
def readValue : Nat → Read Value
  | 0, s => readScalar s
  | depth + 1, s =>
    match s with
    | '[' :: r => (readItems (readValue depth) (r.length + 1) r).map fun p => (.array p.1, p.2)
    | '\x7b' :: r =>
      match skipBlanks r with
      | '\x7d' :: r => some (.table .inline [], r)
      | r =>
        (readPairs (readValue depth) (r.length + 1) [] r).map fun p => (.table .inline p.1, p.2)
    | s => readScalar s

/-! ## Lines -/

/-- A document that is being read. -/
structure Draft where
  entries : Entries := []
  /-- The keys of the table opened last. -/
  current : List Text := []

namespace Draft

/-- Change the document from its top. -/
def change (d : Draft) (f : Entries.Change) : Option Draft := do
  return { d with entries := ← f .header d.entries }

/-- Give a key of the table opened last its value. -/
def assign (d : Draft) (keys : List Text) (key : Text) (v : Value) : Option Draft :=
  d.change (Entries.within false (Entries.assign keys key v) d.current)

end Draft

/-- What follows the end of a line, blanks and a comment in front of it included. -/
def afterLine? (s : Text) : Option Text :=
  let s := skipBlanks s
  let s := match s with
    | '#' :: r => r.dropWhile isPlain
    | s => s
  match s with
  | [] => some []
  | '\n' :: r => some r
  | '\r' :: '\n' :: r => some r
  | _ => none

/-- One line. -/
def readLine (d : Draft) (s : Text) : Option (Draft × Text) :=
  match skipBlanks s with
  | [] => some (d, [])
  | '[' :: '[' :: s => do
    let ((keys, key), s) ← readKey s
    let s ← readChar ']' s
    let s ← readChar ']' s
    let d ← d.change (Entries.openItem keys key)
    return ({ d with current := keys ++ [key] }, ← afterLine? s)
  | '[' :: s => do
    let ((keys, key), s) ← readKey s
    let s ← readChar ']' s
    let d ← d.change (Entries.openTable keys key)
    return ({ d with current := keys ++ [key] }, ← afterLine? s)
  | c :: s =>
    if c = '#' ∨ c = '\n' ∨ c = '\r' then (afterLine? (c :: s)).map fun s => (d, s)
    else do
      let ((keys, key), s) ← readKey (c :: s)
      let s ← readChar '=' s
      let (v, s) ← readValue depthLimit (skipBlanks s)
      return (← d.assign keys key v, ← afterLine? s)

/-- All lines.  A text of `n` characters has fewer than `n + 1` lines. -/
def readLines : Nat → Draft → Text → Option Draft
  | _, d, [] => some d
  | 0, _, _ :: _ => none
  | n + 1, d, s => do
    let (d, s) ← readLine d s
    readLines n d s

/-- The entries of a document, or nothing if the text is none.  A byte order mark at its
front is left out. -/
def parse? (s : Text) : Option Entries := do
  let s := match s with
    | '\uFEFF' :: r => r
    | s => s
  return (← readLines (s.length + 1) {} s).entries

end HostSheet.Toml
