import HostSheet.Syntax.Token
import HostSheet.Sheet
import HostSheet.Sheet.Fault

set_option autoImplicit false

/-!
# Reading a stylesheet

A stylesheet is read token by token.  The reader keeps the blocks that are open, the nodes
read so far in the innermost one, and the statement that is not yet complete.  A statement
ends at a semicolon, at the bracket that opens its block, or at the end of the list it
stands in; inside round and square brackets nothing ends it.

Every step looks at one token only, so reading a text and then another is reading the two
together (`run_append`).
-/

namespace HostSheet

open Syntax

/-! ## Statements -/

/-- A statement that is being read. -/
structure Draft where
  /-- Where it starts. -/
  offset : Nat
  /-- The name, if it is an at-rule. -/
  name : Option Text := none
  /-- What was read after the name, up to the last token that is no blank; backwards, so
  that a token is added in front. -/
  reversed : Text := []
  /-- The blanks read since. -/
  gap : Text := []
  /-- Where in the content the first colon outside brackets stands. -/
  colon : Option Nat := none
  /-- The open round, square and, inside these, curly brackets, innermost first. -/
  brackets : List Bracket := []
  deriving DecidableEq, Repr

namespace Draft

/-- The brackets still open after a token.  A closing bracket that does not match the
innermost open one closes nothing. -/
def bracketsAfter (stack : List Bracket) : Token → List Bracket
  | .opener _ b => b :: stack
  | .closer b => if stack.head? = some b then stack.tail else stack
  | _ => stack

/-- What was read after the name, up to the last token that is no blank. -/
def content (d : Draft) : Text := d.reversed.reverse

/-- Take a token into the content. -/
def add (d : Draft) (t : Token) : Draft :=
  { d with reversed := t.text.reverse ++ (d.gap.reverse ++ d.reversed), gap := [] }

@[simp] theorem content_add (d : Draft) (t : Token) :
    (d.add t).content = d.content ++ d.gap ++ t.text := by
  simp [content, add]

/-- Take a colon, and remember the first. -/
def addColon (d : Draft) : Draft :=
  match d.colon with
  | some _ => d.add .colon
  | none => { d.add .colon with colon := some (d.reversed.length + d.gap.length) }

@[simp] theorem content_addColon (d : Draft) :
    d.addColon.content = d.content ++ d.gap ++ [':'] := by
  unfold addColon
  split
  · exact content_add d .colon
  · exact content_add d .colon

/-- Whether nothing was read yet. -/
def isFresh (d : Draft) : Bool := d.name.isNone && d.reversed.isEmpty

/-- The declaration whose colon stands at offset `k` of the content. -/
def declaration (d : Draft) (before after : Text) (k : Nat) : Declaration where
  before := before
  prop := Text.dropEnd isBlank (d.content.take k)
  between := Text.takeEnd isBlank (d.content.take k) ++
    ':' :: (d.content.drop (k + 1)).takeWhile isBlank
  value := Text.dropStart isBlank (d.content.drop (k + 1))
  after := after

/-- The head of the at-rule `name`, with `between` in front of its block or semicolon. -/
def atHead (d : Draft) (before between name : Text) : AtHead where
  before := before
  name := name
  afterName := d.content.takeWhile isBlank
  params := Text.dropStart isBlank d.content
  between := between

/-- The node of a statement without a block. -/
def node (d : Draft) (before after : Text) : Except Fault Node :=
  match d.name, d.colon with
  | some name, _ => .ok (.atStatement (d.atHead before after name) {})
  | none, some k => .ok (.declaration (d.declaration before after k))
  | none, none => .error ⟨.defect (.unknownWord d.content), d.offset⟩

end Draft

/-- A string is taken as closed if it ends with the quote it starts with. -/
def closesString (raw : Text) : Bool := 2 ≤ raw.length && raw.getLast? == raw.head?

/-! ## The reader -/

/-- The head of a block that is being read. -/
inductive BlockHead where
  | rule (head : RuleHead)
  | atRule (head : AtHead)
  deriving DecidableEq, Repr

namespace BlockHead

/-- The node of a block that was read. -/
def node (nodes : List Node) (ending : Ending) : BlockHead → Node
  | rule head => .rule head nodes ending
  | atRule head => .atBlock head nodes ending

end BlockHead

/-- The nodes of a list that is being read. -/
structure Level where
  nodes : List Node := []
  /-- Whether the last statement had its semicolon. -/
  terminated : Bool := false
  deriving DecidableEq, Repr

namespace Level

/-- Add a statement or comment. -/
def push (l : Level) (n : Node) : Level := { l with nodes := l.nodes ++ [n] }

end Level

/-- A block that is open, and the list it stands in. -/
structure OpenBlock where
  head : BlockHead
  /-- Where its opening bracket stands. -/
  brace : Nat
  outer : Level
  deriving DecidableEq, Repr

/-- What the reader has read. -/
structure Reader where
  /-- The number of characters read. -/
  offset : Nat := 0
  /-- The open blocks, innermost first. -/
  blocks : List OpenBlock := []
  /-- The innermost open list. -/
  level : Level := {}
  /-- The gap in front of the next node of that list. -/
  before : Text := []
  /-- The statement that is not complete. -/
  draft : Option Draft := none
  deriving DecidableEq, Repr

namespace Reader

/-- A fault at the token that comes next. -/
def fault {α : Type} (r : Reader) (d : Defect) : Except Fault α := .error ⟨.defect d, r.offset⟩

/-- Add a complete node. -/
def push (r : Reader) (n : Node) : Reader :=
  { r with level := r.level.push n, before := [], draft := none }

/-- Go into the block of a statement. -/
def enter (r : Reader) (d : Draft) : Except Fault Reader :=
  match d.name with
  | some name => .ok (into r (.atRule (d.atHead r.before d.gap name)))
  | none =>
    if d.reversed.isEmpty then r.fault .missingSelector
    else .ok (into r (.rule ⟨r.before, d.content, d.gap⟩))
where
  into (r : Reader) (head : BlockHead) : Reader :=
    { r with
      blocks := ⟨head, r.offset, r.level⟩ :: r.blocks
      level := {}
      before := []
      draft := none }

/-- Leave the innermost block. -/
def leave (r : Reader) : Except Fault Reader :=
  match r.blocks with
  | [] => r.fault .unexpectedClosingBrace
  | b :: blocks =>
    let n := b.head.node r.level.nodes ⟨r.before, r.level.terminated⟩
    .ok { r with
      blocks := blocks
      level := ⟨b.outer.nodes ++ [n], false⟩
      before := []
      draft := none }

/-- Complete a statement that ends in a semicolon. -/
def terminate (r : Reader) (d : Draft) : Except Fault Reader := do
  let r := r.push (← d.node r.before d.gap)
  return { r with level.terminated := true }

/-- Complete a statement at the end of its list.  The blanks after it go to the list. -/
def cutOff (r : Reader) (d : Draft) : Except Fault Reader := do
  let r := r.push (← d.node r.before [])
  return { r with level.terminated := false, before := d.gap }

/-- Go on with a statement. -/
def extend (r : Reader) (d : Draft) (t : Token) : Except Fault Reader :=
  let keep (d : Draft) : Except Fault Reader := .ok { r with draft := some d }
  if d.brackets ≠ [] then
    keep { d.add t with brackets := Draft.bracketsAfter d.brackets t }
  else
    match t with
    | .blank c => keep { d with gap := d.gap ++ [c] }
    | .semicolon => r.terminate d
    | .opener _ .curly => r.enter d
    | .closer .curly => do (← r.cutOff d).leave
    | .atName name => keep (if d.isFresh then { d with name := some name } else d.add t)
    | .colon => keep d.addColon
    | .comment _ false => r.fault .unclosedComment
    | .quoted raw => if closesString raw then keep (d.add t) else r.fault .unclosedString
    | t => keep { d.add t with brackets := Draft.bracketsAfter [] t }

/-- Take a token where no statement is open. -/
def start (r : Reader) (t : Token) : Except Fault Reader :=
  match t with
  | .blank c => .ok { r with before := r.before ++ [c] }
  | .semicolon => .ok { r with before := r.before ++ [';'] }
  | .comment body true => .ok (r.push (.comment ⟨r.before, body⟩))
  | .comment _ false => r.fault .unclosedComment
  | .closer .curly => r.leave
  | t => r.extend { offset := r.offset } t

/-- Take one token. -/
def step (r : Reader) (t : Token) : Except Fault Reader := do
  let next ← match r.draft with
    | some d => r.extend d t
    | none => r.start t
  return { next with offset := r.offset + t.text.length }

/-- Take tokens, one after the other. -/
def run (r : Reader) (ts : List Token) : Except Fault Reader := ts.foldlM step r

@[simp] theorem run_nil (r : Reader) : r.run [] = .ok r := rfl

theorem run_cons (r : Reader) (t : Token) (ts : List Token) :
    r.run (t :: ts) = (r.step t).bind (·.run ts) := by
  simp only [run, List.foldlM_cons]; rfl

theorem run_append (r : Reader) (ts us : List Token) :
    r.run (ts ++ us) = (r.run ts).bind (·.run us) := by
  simp only [run, List.foldlM_append]; rfl

/-- The end of the text: the last statement ends, and no block may be open. -/
def finish (r : Reader) : Except Fault Sheet := do
  let r ← match r.draft with
    | some d => r.cutOff d
    | none => .ok r
  match r.blocks with
  | b :: _ => .error ⟨.defect .unclosedBlock, b.brace⟩
  | [] => return ⟨r.level.nodes, ⟨r.before, r.level.terminated⟩⟩

end Reader

namespace Sheet

/-- The stylesheet with this text, or the first fault in it. -/
def read (s : Text) : Except Fault Sheet := do
  (← Reader.run {} (Token.ofText s)).finish

/-- The stylesheet with this text, or the first error in it. -/
def parse (s : Text) : Except ParseError Sheet := (read s).mapError (Fault.locate s)

end Sheet

end HostSheet
