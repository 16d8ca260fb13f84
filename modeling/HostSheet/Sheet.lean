import HostSheet.Text

set_option autoImplicit false

/-!
# Stylesheets

A stylesheet is a list of nodes, and rules and at-rules hold lists of nodes again.
Every node keeps the white space around it, so that a stylesheet that was read can be
written back as it was.
-/

namespace HostSheet

/-! ## The parts of a node -/

/-- How a list of nodes ends. -/
structure Ending where
  /-- The gap after the last node. -/
  after : Text := []
  /-- Whether the last statement has its semicolon. -/
  terminated : Bool := false
  deriving DecidableEq, Repr, Inhabited

/-- What stands in front of the block of a style rule. -/
structure RuleHead where
  before : Text := []
  selector : Text
  /-- The gap between the selector and the block. -/
  between : Text := []
  deriving DecidableEq, Repr

/-- An at-rule up to its block or semicolon. -/
structure AtHead where
  before : Text := []
  /-- The name, without the at sign. -/
  name : Text
  /-- The gap between the name and the parameters. -/
  afterName : Text := []
  params : Text := []
  /-- The gap between the parameters and the block or semicolon. -/
  between : Text := []
  deriving DecidableEq, Repr

/-- A property and its value.  Everything after the colon, `!important` included, is
the value. -/
structure Declaration where
  before : Text := []
  prop : Text
  /-- The colon and the gaps on its sides. -/
  between : Text := [':', ' ']
  value : Text
  /-- The gap between the value and its semicolon. -/
  after : Text := []
  deriving DecidableEq, Repr

/-- A comment, without its marks. -/
structure Comment where
  before : Text := []
  text : Text
  deriving DecidableEq, Repr

/-! ## Nodes -/

/-- A node of a stylesheet. -/
inductive Node where
  /-- `selector { … }` -/
  | rule (head : RuleHead) (nodes : List Node) (ending : Ending)
  /-- An at-rule with a block, as `@media print { … }`. -/
  | atBlock (head : AtHead) (nodes : List Node) (ending : Ending)
  /-- An at-rule without a block, as `@import url(a.css);`.  Its ending is kept but has
  no place in the text. -/
  | atStatement (head : AtHead) (ending : Ending)
  | declaration (d : Declaration)
  | comment (c : Comment)
  deriving Repr

instance : Inhabited Node := ⟨.comment ⟨[], []⟩⟩

namespace Node

/-! ### Equality -/

mutual

/-- Whether two nodes are the same. -/
def decEq : (m n : Node) → Decidable (m = n)
  | rule h ns e, rule h' ns' e' =>
    match decEqAll ns ns' with
    | isTrue hn => decidable_of_iff (h = h' ∧ e = e') (by simp [hn])
    | isFalse hn => isFalse (by simp [hn])
  | atBlock h ns e, atBlock h' ns' e' =>
    match decEqAll ns ns' with
    | isTrue hn => decidable_of_iff (h = h' ∧ e = e') (by simp [hn])
    | isFalse hn => isFalse (by simp [hn])
  | atStatement h e, atStatement h' e' => decidable_of_iff (h = h' ∧ e = e') (by simp)
  | declaration d, declaration d' => decidable_of_iff (d = d') (by simp)
  | comment c, comment c' => decidable_of_iff (c = c') (by simp)
  | rule .., atBlock .. | rule .., atStatement .. | rule .., declaration _
  | rule .., comment _ => isFalse nofun
  | atBlock .., rule .. | atBlock .., atStatement .. | atBlock .., declaration _
  | atBlock .., comment _ => isFalse nofun
  | atStatement .., rule .. | atStatement .., atBlock .. | atStatement .., declaration _
  | atStatement .., comment _ => isFalse nofun
  | declaration _, rule .. | declaration _, atBlock .. | declaration _, atStatement ..
  | declaration _, comment _ => isFalse nofun
  | comment _, rule .. | comment _, atBlock .. | comment _, atStatement ..
  | comment _, declaration _ => isFalse nofun

/-- Whether two lists of nodes are the same. -/
def decEqAll : (ms ns : List Node) → Decidable (ms = ns)
  | [], [] => isTrue rfl
  | [], _ :: _ => isFalse nofun
  | _ :: _, [] => isFalse nofun
  | m :: ms, n :: ns =>
    match decEq m n, decEqAll ms ns with
    | isTrue hm, isTrue hs => isTrue (by rw [hm, hs])
    | isFalse hm, _ => isFalse (by simp [hm])
    | _, isFalse hs => isFalse (by simp [hs])

end

instance : DecidableEq Node := decEq

/-! ### Gaps and children -/

/-- The gap in front of the node. -/
def before : Node → Text
  | rule head _ _ => head.before
  | atBlock head _ _ => head.before
  | atStatement head _ => head.before
  | declaration d => d.before
  | comment c => c.before

/-- The node behind another gap. -/
def withBefore (gap : Text) : Node → Node
  | rule head nodes ending => rule { head with before := gap } nodes ending
  | atBlock head nodes ending => atBlock { head with before := gap } nodes ending
  | atStatement head ending => atStatement { head with before := gap } ending
  | declaration d => declaration { d with before := gap }
  | comment c => comment { c with before := gap }

@[simp] theorem before_withBefore (gap : Text) (n : Node) :
    (n.withBefore gap).before = gap := by cases n <;> rfl

@[simp] theorem withBefore_before (n : Node) : n.withBefore n.before = n := by
  cases n <;> rfl

def isComment : Node → Bool
  | comment _ => true
  | _ => false

@[simp] theorem isComment_withBefore (gap : Text) (n : Node) :
    (n.withBefore gap).isComment = n.isComment := by cases n <;> rfl

/-- The nodes inside, for a node that has a block. -/
def children? : Node → Option (List Node)
  | rule _ nodes _ => some nodes
  | atBlock _ nodes _ => some nodes
  | _ => none

/-- The node with other nodes inside; a node without a block stays as it is. -/
def withChildren (nodes : List Node) : Node → Node
  | rule head _ ending => rule head nodes ending
  | atBlock head _ ending => atBlock head nodes ending
  | n => n

/-! ### Counting -/

mutual

/-- The number of style rules in a node, itself included. -/
def ruleCount : Node → Nat
  | rule _ nodes _ => 1 + rulesIn nodes
  | atBlock _ nodes _ => rulesIn nodes
  | _ => 0

/-- The number of style rules in nodes at any depth. -/
def rulesIn : List Node → Nat
  | [] => 0
  | n :: ns => n.ruleCount + rulesIn ns

end

mutual

/-- The number of nodes in a node, itself included. -/
def weight : Node → Nat
  | rule _ nodes _ => 1 + weightOf nodes
  | atBlock _ nodes _ => 1 + weightOf nodes
  | _ => 1

/-- The number of nodes at any depth. -/
def weightOf : List Node → Nat
  | [] => 0
  | n :: ns => n.weight + weightOf ns

end

theorem weight_pos (n : Node) : 0 < n.weight := by
  cases n <;> simp only [weight] <;> omega

@[simp] theorem weight_withBefore (gap : Text) (n : Node) :
    (n.withBefore gap).weight = n.weight := by cases n <;> simp [withBefore, weight]

theorem weightOf_append (ms ns : List Node) :
    weightOf (ms ++ ns) = weightOf ms + weightOf ns := by
  induction ms with
  | nil => simp [weightOf]
  | cons m ms ih => simp [weightOf, ih, Nat.add_assoc]

end Node

/-! ## Stylesheets -/

/-- A stylesheet. -/
structure Sheet where
  nodes : List Node := []
  ending : Ending := {}
  deriving DecidableEq, Repr, Inhabited

namespace Sheet

/-- The stylesheet without any text. -/
def empty : Sheet := {}

/-- The number of style rules at any depth. -/
def ruleCount (s : Sheet) : Nat := Node.rulesIn s.nodes

end Sheet

end HostSheet
