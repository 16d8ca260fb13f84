import HostSheet.Selector
import HostSheet.Layer
import HostSheet.Sheet.Parse
import HostSheet.Sheet.Print
import HostSheet.Sheet.Walk
import HostSheet.Sheet.Edit

set_option autoImplicit false

/-!
# Rewriting a stylesheet as a tree

The stylesheet is read, its nodes are rewritten, and it is written back, so that comments
and gaps outside the rewritten parts stay as they are.

* A rule for `:host` alone is replaced by its nodes, at its place.
* The selector of any other rule is rewritten; see `rewriteRuleSelector`.
* At the end the gap before a declaration shrinks to a line break if it holds an empty
  line.

The nodes that take the place of a host rule are looked at again, since there may be host
rules among them.  Each replacement takes one rule away for good, so this ends.
-/

namespace HostSheet

namespace TreeMode

/-! ## Selectors -/

/-- The selector of a rule that is not for `:host` alone.  One that mentions `:host` is
rewritten.  Any other has its attributes remapped if it has brackets at all, unless
`data-` occurs in it already. -/
def rewriteRuleSelector (o : Options) (selector : Text) : Text :=
  if Selector.mentionsHost selector then (Selector.rewrite o selector).text
  else if o.dataAttributes && selector.contains '[' &&
      !Text.occursIn Attribute.dataMark selector then
    (Selector.remapAttributes o selector).text
  else selector

/-! ## Host rules -/

/-- The indentation at the end of a gap: what follows its last line break, or nothing if
it has none. -/
def indentation (gap : Text) : Text :=
  if gap.contains '\n' then Text.takeEnd (· ≠ '\n') gap else []

/-- The nodes of a host rule as they stand in its place.  The first takes over the rule's
own gap.  A later one that starts on a line of its own still does, indented as the rule
was. -/
def hoist (gap : Text) : List Node → List Node
  | [] => []
  | n :: ns =>
    n.withBefore gap :: ns.map fun m =>
      if m.before.contains '\n' then m.withBefore ('\n' :: indentation gap) else m

theorem weightOf_map_of_weight {f : Node → Node} (h : ∀ n, (f n).weight = n.weight)
    (ns : List Node) : Node.weightOf (ns.map f) = Node.weightOf ns := by
  induction ns with
  | nil => rfl
  | cons n ns ih => simp [Node.weightOf, h, ih]

theorem weightOf_hoist (gap : Text) (ns : List Node) :
    Node.weightOf (hoist gap ns) = Node.weightOf ns := by
  cases ns with
  | nil => rfl
  | cons n ns =>
    simp only [hoist, Node.weightOf, Node.weight_withBefore]
    rw [weightOf_map_of_weight]
    intro m
    split <;> simp

/-- The end of a list after a host rule at its place `… h :: rest` was replaced.  The
rule's own ending counts if its last statement becomes the last statement of the list. -/
def terminatedAfter (rest nodes : List Node) (ending : Ending) (terminated : Bool) : Bool :=
  if rest.all Node.isComment && nodes.any (!·.isComment) then ending.terminated
  else terminated

/-! ## Nodes -/

mutual

/-- A node that is no host rule, rewritten with all nodes inside. -/
def transformNode (o : Options) : Node → Node
  | .rule head nodes ending =>
    let inner := transformNodes o nodes ending.terminated
    .rule { head with selector := rewriteRuleSelector o head.selector } inner.1
      { ending with terminated := inner.2 }
  | .atBlock head nodes ending =>
    let inner := transformNodes o nodes ending.terminated
    .atBlock head inner.1 { ending with terminated := inner.2 }
  | n => n
termination_by n => 2 * n.weight
decreasing_by all_goals simp only [Node.weight]; omega

/-- A list of nodes without its host rules, rewritten, and whether its last statement has
its semicolon. -/
def transformNodes (o : Options) : List Node → Bool → List Node × Bool
  | [], terminated => ([], terminated)
  | .rule head nodes ending :: rest, terminated =>
    if Selector.isHostOnly head.selector then
      transformNodes o (hoist head.before nodes ++ rest)
        (terminatedAfter rest nodes ending terminated)
    else
      let tail := transformNodes o rest terminated
      (transformNode o (.rule head nodes ending) :: tail.1, tail.2)
  | n :: rest, terminated =>
    let tail := transformNodes o rest terminated
    (transformNode o n :: tail.1, tail.2)
termination_by ns => 2 * Node.weightOf ns + 1
decreasing_by
  · simp only [Node.weightOf_append, weightOf_hoist, Node.weightOf, Node.weight]; omega
  · simp only [Node.weightOf, Node.weight]; omega
  · simp only [Node.weightOf]; omega
  · have := n.weight_pos
    simp only [Node.weightOf]; omega
  · simp only [Node.weightOf]; omega

end

/-- A rule rewritten on its own.  A host rule has no list to put its nodes into and stays
as it is; nodes that are no rules cannot be rewritten on their own. -/
def transformRule? (o : Options) (n : Node) : Option Node :=
  match n with
  | .rule head _ _ => some (if Selector.isHostOnly head.selector then n else transformNode o n)
  | _ => none

/-! ## Empty lines -/

/-- The gap before a declaration, without empty lines. -/
def withoutEmptyLine (gap : Text) : Text :=
  if Text.occursIn ['\n', '\n'] gap then ['\n'] else gap

/-- A declaration without empty lines in front of it. -/
def shrinkGap (d : Declaration) : Declaration :=
  { d with before := withoutEmptyLine d.before }

end TreeMode

/-! ## Stylesheets -/

namespace Sheet

/-- A stylesheet rewritten, without its layer. -/
def transform (o : Options) (s : Sheet) : Sheet :=
  let inner := TreeMode.transformNodes o s.nodes s.ending.terminated
  Sheet.mapDeclarations TreeMode.shrinkGap ⟨inner.1, { s.ending with terminated := inner.2 }⟩

/-- Rewrite the rule at a path on its own. -/
def transformRuleAt (o : Options) (path : Path) (s : Sheet) : Except EditFault Sheet := do
  let some n := s.at? path | throw .noNode
  let some n := TreeMode.transformRule? o n | throw .notARule
  let some s := s.set? path n | throw .noNode
  return s

end Sheet

/-- A text read as a stylesheet, rewritten, written back and put into its layer. -/
def transformTree (o : Options) (s : Text) : Except ParseError Text := do
  return wrapInLayer ((← Sheet.parse s).transform o).print o.layer

end HostSheet
