import Mathlib
import HostSheet.TreeMode

set_option autoImplicit false

/-!
# Stylesheets in depth-first order

A stylesheet can be listed node by node, parents in front of their children.  The listing
keeps of every node what rewriting must not touch (`Label`): all of it but the gap in
front of it, the nodes inside it, and the semicolon flag of its list.  With every node
stand the labels of the nodes around it, the innermost first (`Entry`), so the listing
says which node is whose parent: the tree can be built again from the number of ancestors
alone.
-/

namespace HostSheet

/-- A node without its gap, its place and what is inside it. -/
inductive Label where
  | rule (selector between after : Text)
  | atBlock (name afterName params between after : Text)
  | atStatement (name afterName params between : Text) (ending : Ending)
  | declaration (prop between value after : Text)
  | comment (text : Text)
  deriving DecidableEq, Repr

namespace Label

/-- The label of a style rule. -/
def isRule : Label → Bool
  | rule _ _ _ => true
  | _ => false

/-- The label of a rule for `:host` alone. -/
def isHost : Label → Bool
  | rule selector _ _ => Selector.isHostOnly selector
  | _ => false

/-- The label with its selector, if it has one, rewritten on its own. -/
def rewrite (o : Options) : Label → Label
  | rule selector between after =>
    rule (TreeMode.rewriteRuleSelector o selector) between after
  | l => l

theorem isRule_of_isHost {l : Label} (h : l.isHost = true) : l.isRule = true := by
  cases l <;> first | rfl | cases h

@[simp] theorem isRule_rewrite (o : Options) (l : Label) :
    (l.rewrite o).isRule = l.isRule := by
  cases l <;> rfl

end Label

/-- A node of a listing. -/
structure Entry where
  /-- The labels of the nodes around it, the innermost first. -/
  ancestors : List Label
  label : Label
  deriving DecidableEq, Repr

namespace Node

/-- The label of a node. -/
def label : Node → Label
  | rule head _ ending => .rule head.selector head.between ending.after
  | atBlock head _ ending =>
    .atBlock head.name head.afterName head.params head.between ending.after
  | atStatement head ending =>
    .atStatement head.name head.afterName head.params head.between ending
  | declaration d => .declaration d.prop d.between d.value d.after
  | comment c => .comment c.text

@[simp] theorem label_withBefore (gap : Text) (n : Node) :
    (n.withBefore gap).label = n.label := by
  cases n <;> rfl

mutual

/-- A node and the nodes inside it, in depth-first order. -/
def entries (ancestors : List Label) (n : Node) : List Entry :=
  ⟨ancestors, n.label⟩ ::
    match n with
    | rule _ nodes _ => entriesIn (n.label :: ancestors) nodes
    | atBlock _ nodes _ => entriesIn (n.label :: ancestors) nodes
    | _ => []

/-- Nodes at every depth, in depth-first order. -/
def entriesIn (ancestors : List Label) : List Node → List Entry
  | [] => []
  | n :: ns => n.entries ancestors ++ entriesIn ancestors ns

end

theorem entriesIn_append (ancestors : List Label) (ms ns : List Node) :
    entriesIn ancestors (ms ++ ns) = entriesIn ancestors ms ++ entriesIn ancestors ns := by
  induction ms with
  | nil => simp [entriesIn]
  | cons m ms ih => simp [entriesIn, ih]

theorem entries_withBefore (ancestors : List Label) (gap : Text) (n : Node) :
    (n.withBefore gap).entries ancestors = n.entries ancestors := by
  cases n <;> simp [withBefore, entries, label]

theorem entriesIn_map {f : Node → Node} (ancestors : List Label) {ns : List Node}
    (h : ∀ n ∈ ns, (f n).entries ancestors = n.entries ancestors) :
    entriesIn ancestors (ns.map f) = entriesIn ancestors ns := by
  induction ns with
  | nil => rfl
  | cons n ns ih =>
    rw [List.map_cons, entriesIn, entriesIn, h n List.mem_cons_self,
      ih fun m hm => h m (List.mem_cons_of_mem _ hm)]

/-- The last case of a definition by the kind of block is that of the nodes without one. -/
theorem children?_eq_none_of_ne {n : Node}
    (hrule : ∀ head nodes ending, n = .rule head nodes ending → False)
    (hatBlock : ∀ head nodes ending, n = .atBlock head nodes ending → False) :
    n.children? = none := by
  cases n with
  | rule head nodes ending => exact absurd rfl (hrule head nodes ending)
  | atBlock head nodes ending => exact absurd rfl (hatBlock head nodes ending)
  | _ => rfl

/-- Induction over a tree, with one case for all nodes without a block. -/
theorem induction {P : Node → Prop} {Q : List Node → Prop}
    (hrule : ∀ head nodes ending, Q nodes → P (.rule head nodes ending))
    (hatBlock : ∀ head nodes ending, Q nodes → P (.atBlock head nodes ending))
    (hleaf : ∀ n : Node, n.children? = none → P n) (hnil : Q [])
    (hcons : ∀ n ns, P n → Q ns → Q (n :: ns)) : (∀ n, P n) ∧ ∀ ns, Q ns := by
  refine selectors.mutual_induct P Q hrule hatBlock ?_ hnil hcons
  exact fun n hr hb => hleaf n (children?_eq_none_of_ne hr hb)

theorem isComment_of_children?_eq_some {n : Node} {nodes : List Node}
    (h : n.children? = some nodes) : n.isComment = false := by
  cases n with
  | rule head nodes ending => rfl
  | atBlock head nodes ending => rfl
  | atStatement head ending => cases h
  | declaration d => cases h
  | comment c => cases h

theorem entries_rule (ancestors : List Label) (head : RuleHead) (nodes : List Node)
    (ending : Ending) :
    (rule head nodes ending).entries ancestors =
      ⟨ancestors, .rule head.selector head.between ending.after⟩ ::
        entriesIn (.rule head.selector head.between ending.after :: ancestors) nodes := by
  rw [entries]; rfl

theorem entries_atBlock (ancestors : List Label) (head : AtHead) (nodes : List Node)
    (ending : Ending) :
    (atBlock head nodes ending).entries ancestors =
      ⟨ancestors, (atBlock head nodes ending).label⟩ ::
        entriesIn ((atBlock head nodes ending).label :: ancestors) nodes := by
  rw [entries]

theorem entries_of_children?_eq_none {n : Node} (h : n.children? = none)
    (ancestors : List Label) : n.entries ancestors = [⟨ancestors, n.label⟩] := by
  cases n with
  | rule head nodes ending => cases h
  | atBlock head nodes ending => cases h
  | atStatement head ending => simp [entries]
  | declaration d => simp [entries]
  | comment c => simp [entries]

/-! ## Counting -/

/-- The style rules of a tree are the entries with the label of a rule. -/
theorem rulesIn_eq_countP (ancestors : List Label) (ns : List Node) :
    rulesIn ns = (entriesIn ancestors ns).countP (·.label.isRule) := by
  have h : (∀ n : Node, ∀ ancestors,
        n.ruleCount = (n.entries ancestors).countP (·.label.isRule)) ∧
      ∀ ns : List Node, ∀ ancestors,
        rulesIn ns = (entriesIn ancestors ns).countP (·.label.isRule) := by
    refine induction ?rule ?atBlock ?leaf ?nil ?cons
    case rule =>
      intro head nodes ending ih ancestors
      rw [ruleCount, entries_rule, List.countP_cons_of_pos rfl, ← ih, Nat.add_comm]
    case atBlock =>
      intro head nodes ending ih ancestors
      rw [ruleCount, entries_atBlock, List.countP_cons_of_neg (by simp [label, Label.isRule]),
        ← ih]
    case leaf =>
      intro n hn ancestors
      rw [entries_of_children?_eq_none hn]
      cases n <;> simp [ruleCount, label, Label.isRule, children?] at hn ⊢
    case nil =>
      intro ancestors
      rfl
    case cons =>
      intro n ns hn hns ancestors
      rw [rulesIn, entriesIn, List.countP_append, hn ancestors, hns ancestors]
  exact h.2 ns ancestors

end Node

namespace Sheet

/-- The nodes of a stylesheet in depth-first order. -/
def listing (s : Sheet) : List Entry := Node.entriesIn [] s.nodes

theorem ruleCount_eq_countP (s : Sheet) :
    s.ruleCount = s.listing.countP (·.label.isRule) :=
  Node.rulesIn_eq_countP [] s.nodes

end Sheet

end HostSheet
