import Mathlib
import HostSheet.Proofs.Hoisting
import HostSheet.Proofs.Rereading

set_option autoImplicit false

/-!
# Rewritten stylesheets read back

Rewriting moves nodes and changes the gaps in front of them and the selectors of rules.  Nodes
that stand go on standing where they are moved to, so that a rewritten stylesheet is read back
from its text if its new selectors are (`Sheet.everyIn_stands_transform`).

Where `:host` is only a whole selector there are no new selectors, and the text of the rewritten
stylesheet means the stylesheet itself, unless a host block hands its last statement, which has
no semicolon, over to a comment behind the block (`Sheet.parse_print_transform_iff`,
`Sheet.transform_loses_comment`).
-/

namespace HostSheet

open Syntax

/-! ## Properties of all nodes -/

namespace Node

theorem everyIn_imp₂ {p q r : Node → Prop} (h : ∀ n, p n → q n → r n) {ns : List Node}
    (hp : EveryIn p ns) (hq : EveryIn q ns) : EveryIn r ns := by
  refine (Node.induction (P := fun n => Every p n → Every q n → Every r n)
    (Q := fun ns => EveryIn p ns → EveryIn q ns → EveryIn r ns)
    ?rule ?atBlock ?leaf ?nil ?cons).2 ns hp hq
  case rule | atBlock => exact fun head nodes ending ih hp hq => ⟨h _ hp.1 hq.1, ih hp.2 hq.2⟩
  case leaf =>
    intro n hn
    rw [every_of_children?_eq_none hn, every_of_children?_eq_none hn,
      every_of_children?_eq_none hn]
    exact h n
  case nil => exact fun _ _ => trivial
  case cons => exact fun n ns ihn ihns hp hq => ⟨ihn hp.1 hq.1, ihns hp.2 hq.2⟩

/-- The rules among nodes have the selectors in the nodes. -/
theorem everyIn_of_selectors {p : Text → Prop} {ns : List Node}
    (h : ∀ x ∈ selectorsIn ns, p x) :
    EveryIn (fun n => ∀ head nodes ending, n = .rule head nodes ending → p head.selector) ns := by
  let q (n : Node) : Prop := ∀ head nodes ending, n = .rule head nodes ending → p head.selector
  refine (Node.induction (P := fun n => (∀ x ∈ n.selectors, p x) → Every q n)
    (Q := fun ns => (∀ x ∈ selectorsIn ns, p x) → EveryIn q ns)
    ?rule ?atBlock ?leaf ?nil ?cons).2 ns h
  case rule =>
    intro head nodes ending ih h
    rw [selectors] at h
    refine ⟨?_, ih fun x hx => h x (List.mem_cons_of_mem _ hx)⟩
    rintro head' nodes' ending' heq
    cases heq
    exact h _ List.mem_cons_self
  case atBlock =>
    intro head nodes ending ih h
    rw [selectors] at h
    exact ⟨nofun, ih h⟩
  case leaf =>
    intro n hn _
    rw [every_of_children?_eq_none hn]
    rintro head nodes ending rfl
    cases hn
  case nil => exact fun _ => trivial
  case cons =>
    intro n ns ihn ihns h
    rw [selectorsIn] at h
    exact ⟨ihn fun x hx => h x (List.mem_append_left _ hx),
      ihns fun x hx => h x (List.mem_append_right _ hx)⟩

end Node

/-! ## Nodes that go on standing -/

theorem TreeMode.transformNode_withBefore (o : Options) (n : Node) (gap : Text) :
    transformNode o (n.withBefore gap) = (transformNode o n).withBefore gap := by
  cases n <;> simp only [Node.withBefore, transformNode]

theorem TreeMode.isLoose_withoutEmptyLine {gap : Text} (h : IsLoose gap) :
    IsLoose (withoutEmptyLine gap) := by
  unfold withoutEmptyLine
  split
  · intro c hc
    rw [List.mem_singleton.1 hc]
    exact .inl rfl
  · exact h

theorem TreeMode.isLoose_indentation {gap : Text} (h : IsLoose gap) :
    IsLoose (indentation gap) := by
  unfold indentation
  split
  · intro c hc
    have hmem := (List.takeWhile_sublist _).subset (List.mem_reverse.1 hc)
    exact h c (List.mem_reverse.1 hmem)
  · exact isLoose_nil

namespace Node

theorem Stands.isLoose_before {n : Node} (h : n.Stands) : IsLoose n.before := by
  have hhead : ∀ (head : BlockHead) (ns : List Node) (e : Ending), head.Stands →
      IsLoose (head.node ns e).before := by
    rintro head ns e ⟨_, ⟨before, us, d, gap, hbefore, _, _, _, hh, _⟩, _⟩
    rw [Draft.before_of_blockHead? hh]
    exact hbefore
  have hstatement : ∀ {n : Node}, n.isStatement = true → n.Stands → IsLoose n.before := by
    intro n hn h
    obtain ⟨us, d, before, after, _, hbefore, _, hnode⟩ := (stands_iff_of_isStatement hn).1 h
    rw [Draft.before_of_node hnode]
    exact hbefore
  cases n with
  | rule head nodes ending => exact hhead (.rule head) nodes ending h.1
  | atBlock head nodes ending => exact hhead (.atRule head) nodes ending h.1
  | comment c => exact h.1
  | atStatement head ending => exact hstatement rfl h
  | declaration d => exact hstatement rfl h

/-- A node that stands once it is rewritten.  Of a host rule only the gap in front is left. -/
def StandsRewritten (o : Options) (n : Node) : Prop :=
  IsLoose n.before ∧ (n.isHost = false → (TreeMode.transformNode o n).Stands)

theorem isHost_withBefore (gap : Text) (n : Node) : (n.withBefore gap).isHost = n.isHost := by
  cases n <;> rfl

theorem StandsRewritten.withBefore {o : Options} {n : Node} (h : n.StandsRewritten o)
    {gap : Text} (hgap : IsLoose gap) : (n.withBefore gap).StandsRewritten o := by
  refine ⟨by rwa [before_withBefore], fun hhost => ?_⟩
  rw [isHost_withBefore] at hhost
  rw [TreeMode.transformNode_withBefore]
  exact (h.2 hhost).withBefore hgap

/-! ### Properties that rewriting keeps -/

theorem every_withBefore {p : Node → Prop} {n : Node} {gap : Text} (h : Every p n)
    (hself : p (n.withBefore gap)) : Every p (n.withBefore gap) := by
  cases n with
  | rule head nodes ending => exact ⟨hself, h.2⟩
  | atBlock head nodes ending => exact ⟨hself, h.2⟩
  | atStatement head ending => exact hself
  | declaration d => exact hself
  | comment c => exact hself

section Kept

variable {p q : Node → Prop}
  (hp : ∀ {n : Node} {gap : Text}, p n → IsLoose gap → p (n.withBefore gap))

include hp

/-- The nodes of a host block, in the place of the block. -/
theorem everyIn_hoist {gap : Text} (hgap : IsLoose gap) {ns : List Node} (h : EveryIn p ns) :
    EveryIn p (TreeMode.hoist gap ns) := by
  cases ns with
  | nil => trivial
  | cons n ns =>
    refine ⟨every_withBefore h.1 (hp h.1.self hgap), ?_⟩
    have hline : IsLoose ('\n' :: TreeMode.indentation gap) := by
      intro c hc
      rcases List.mem_cons.1 hc with rfl | hc
      · exact .inl rfl
      · exact TreeMode.isLoose_indentation hgap c hc
    induction ns with
    | nil => trivial
    | cons m ns ih =>
      refine ⟨?_, ih ⟨h.1, h.2.2⟩⟩
      dsimp only
      split
      · exact every_withBefore h.2.1 (hp h.2.1.self hline)
      · exact h.2.1

/-- What holds of every rewritten node holds of rewritten nodes at every depth, also of those
that take the place of a host rule. -/
theorem everyIn_transformNodes (o : Options) (hloose : ∀ {n : Node}, p n → IsLoose n.before)
    (hnode : ∀ {n : Node}, Every p n → n.isHost = false → q (TreeMode.transformNode o n))
    (ns : List Node) (terminated : Bool) (h : EveryIn p ns) :
    EveryIn q (TreeMode.transformNodes o ns terminated).1 := by
  refine (TreeMode.induction o
    (P := fun n => Every p n → n.isHost = false → Every q (TreeMode.transformNode o n))
    (Q := fun ns terminated => EveryIn p ns →
      EveryIn q (TreeMode.transformNodes o ns terminated).1)
    ?rule ?atBlock ?leaf ?nil ?host ?cons).2 ns terminated h
  case rule | atBlock =>
    intro head nodes ending ih h hhost
    have hself := hnode h hhost
    rw [TreeMode.transformNode] at hself ⊢
    exact ⟨hself, ih h.2⟩
  case leaf =>
    intro n hn h hhost
    have hself := hnode h hhost
    rw [TreeMode.transformNode_of_children?_eq_none hn] at hself ⊢
    exact (every_of_children?_eq_none hn).2 hself
  case nil =>
    intro terminated _
    rw [TreeMode.transformNodes]
    trivial
  case host =>
    rintro head nodes ending rest terminated hhost ih ⟨hrule, hrest⟩
    rw [TreeMode.transformNodes_host hhost]
    exact ih (everyIn_append.2 ⟨everyIn_hoist hp (hloose hrule.1) hrule.2, hrest⟩)
  case cons =>
    rintro n rest terminated hhost ihn ihrest ⟨hn, hrest⟩
    rw [TreeMode.transformNodes_cons hhost]
    exact ⟨ihn hn hhost, ihrest hrest⟩

end Kept

/-- What holds of every node with its declarations changed holds at every depth. -/
theorem everyIn_mapDeclarationsIn {p q : Node → Prop} {f : Declaration → Declaration}
    (hnode : ∀ {n : Node}, p n → q (n.mapDeclarations f)) {ns : List Node} (h : EveryIn p ns) :
    EveryIn q (mapDeclarationsIn f ns) := by
  refine (Node.induction (P := fun n => Every p n → Every q (n.mapDeclarations f))
    (Q := fun ns => EveryIn p ns → EveryIn q (mapDeclarationsIn f ns))
    ?rule ?atBlock ?leaf ?nil ?cons).2 ns h
  case rule | atBlock =>
    intro head nodes ending ih h
    have hself := hnode h.1
    rw [mapDeclarations] at hself ⊢
    exact ⟨hself, ih h.2⟩
  case leaf =>
    intro n hn h
    have hself := hnode h.self
    rw [every_of_children?_eq_none (by cases n <;> first | rfl | cases hn)]
    exact hself
  case nil => exact fun _ => trivial
  case cons =>
    intro n ns ihn ihns h
    rw [mapDeclarationsIn]
    exact ⟨ihn h.1, ihns h.2⟩

/-! ### Nodes that stand -/

/-- Rewriting keeps nodes standing. -/
theorem everyIn_stands_transformNodes (o : Options) (ns : List Node) (terminated : Bool)
    (h : EveryIn (StandsRewritten o) ns) :
    EveryIn Stands (TreeMode.transformNodes o ns terminated).1 :=
  everyIn_transformNodes (p := StandsRewritten o) (fun h hgap => h.withBefore hgap) o And.left
    (fun h => h.self.2) ns terminated h

theorem everyIn_stands_shrinkGap {ns : List Node} (h : EveryIn Stands ns) :
    EveryIn Stands (mapDeclarationsIn TreeMode.shrinkGap ns) := by
  refine everyIn_mapDeclarationsIn (fun {n} hn => ?_) h
  cases n with
  | rule head nodes ending =>
    rw [mapDeclarations]
    exact hn
  | atBlock head nodes ending =>
    rw [mapDeclarations]
    exact hn
  | declaration d =>
    rw [mapDeclarations]
    exact hn.withBefore (TreeMode.isLoose_withoutEmptyLine hn.isLoose_before)
  | _ => exact hn

end Node

/-! ## Rewritten stylesheets -/

/-- The head of a rule with its selector rewritten. -/
def RuleHead.rewrite (o : Options) (head : RuleHead) : RuleHead :=
  { head with selector := TreeMode.rewriteRuleSelector o head.selector }

/-- Where `:host` is only a whole selector, no other selector changes. -/
theorem RuleHead.rewrite_of_only_host {head : RuleHead}
    (h : Selector.mentionsHost head.selector = true → Selector.isHostOnly head.selector = true)
    (hhost : Selector.isHostOnly head.selector = false) : head.rewrite {} = head := by
  have hmentions : Selector.mentionsHost head.selector = false := by
    cases hm : Selector.mentionsHost head.selector with
    | false => rfl
    | true => rw [h hm] at hhost; cases hhost
  rw [rewrite, TreeMode.rewriteRuleSelector, hmentions]
  rfl

namespace Sheet

variable {css : Text} {s : Sheet}

theorem everyIn_stands_of_parse (hparse : parse css = .ok s)
    (hfirm : Node.EveryIn Node.IsFirm s.nodes) :
    Node.EveryIn Node.Stands s.nodes ∧ IsLoose s.ending.after := by
  have hspells := spells_of_parse hparse
  exact ⟨hspells.everyIn_stands hfirm (Token.parted_ofText css) (.inl ⟨rfl, rfl⟩),
    hspells.isLoose_after⟩

/-- Rewriting keeps the nodes of a stylesheet standing, if the rewritten heads of its rules
stand. -/
theorem everyIn_stands_transform (o : Options) (hstands : Node.EveryIn Node.Stands s.nodes)
    (hheads : Node.EveryIn (fun n => ∀ head nodes ending, n = .rule head nodes ending →
      Selector.isHostOnly head.selector = false → (BlockHead.rule (head.rewrite o)).Stands)
      s.nodes) :
    Node.EveryIn Node.Stands (s.transform o).nodes := by
  refine Node.everyIn_stands_shrinkGap (Node.everyIn_stands_transformNodes o _ _ ?_)
  refine Node.everyIn_imp₂ (fun n hn hhead => ⟨hn.isLoose_before, fun hhost => ?_⟩) hstands hheads
  cases n with
  | rule head nodes ending =>
    rw [TreeMode.transformNode]
    exact ⟨hhead _ _ _ rfl hhost, hn.2⟩
  | atBlock head nodes ending =>
    rw [TreeMode.transformNode]
    exact hn
  | _ =>
    rw [TreeMode.transformNode_of_children?_eq_none rfl]
    exact hn

/-- The text of a rewritten stylesheet means the stylesheet, if `:host` is only a whole selector
in it and no token at the end of a statement can take more characters in, up to the comments
that statements take in. -/
theorem parse_print_transform_iff (hparse : parse css = .ok s)
    (hhost : ∀ x ∈ s.selectors, Selector.mentionsHost x = true → Selector.isHostOnly x = true)
    (hfirm : Node.EveryIn Node.IsFirm s.nodes) :
    ∃ s', parse (s.transform {}).print = .ok s' ∧
      (s'.bare = (s.transform {}).bare ↔ (s.transform {}).joins = false) := by
  obtain ⟨hstands, hafter⟩ := everyIn_stands_of_parse hparse hfirm
  refine exists_parse_print (everyIn_stands_transform {} hstands ?_) hafter
  refine Node.everyIn_imp₂ (fun n hn honly => ?_) hstands (Node.everyIn_of_selectors hhost)
  rintro head nodes ending rfl hhost
  rw [RuleHead.rewrite_of_only_host (honly _ _ _ rfl) hhost]
  exact hn.1

theorem parse_print_transform_iff_nested :
    ∃ s, parse "a\x7b:host\x7bb:c\x7d/*d*/;:host\x7b@e f\x7d\x7d:host\x7bg:h;\x7d".toList = .ok s ∧
      (∀ x ∈ s.selectors, Selector.mentionsHost x = true → Selector.isHostOnly x = true) ∧
      Node.EveryIn Node.IsFirm s.nodes ∧ (s.transform {}).joins = false ∧
      ∃ s', parse (s.transform {}).print = .ok s' ∧ s'.bare = (s.transform {}).bare := by
  let s : Sheet := ⟨[.rule ⟨[], ['a'], []⟩ [.rule ⟨[], ":host".toList, []⟩
      [.declaration ⟨[], ['b'], [':'], ['c'], []⟩] {}, .comment ⟨[], ['d']⟩,
      .rule ⟨[';'], ":host".toList, []⟩ [.atStatement ⟨[], ['e'], [' '], ['f'], []⟩ {}] {}] {},
    .rule ⟨[], ":host".toList, []⟩ [.declaration ⟨[], ['g'], [':'], ['h'], []⟩] ⟨[], true⟩], {}⟩
  have hparse : parse "a\x7b:host\x7bb:c\x7d/*d*/;:host\x7b@e f\x7d\x7d:host\x7bg:h;\x7d".toList =
      .ok s := parse_of_toOption (by decide +kernel)
  have hhost : ∀ x ∈ s.selectors,
      Selector.mentionsHost x = true → Selector.isHostOnly x = true := by
    decide +kernel
  have hfirm : Node.EveryIn Node.IsFirm s.nodes := by
    have hb : Firm ['b', ':', 'c'] := by decide +kernel
    have he : Firm ['@', 'e', ' ', 'f'] := by decide +kernel
    have hg : Firm ['g', ':', 'h'] := by decide +kernel
    simp [s, Node.EveryIn, Node.Every, Node.IsFirm, Node.core?, Declaration.core, hb, he, hg]
  have hjoins : (s.transform {}).joins = false := by decide +kernel
  obtain ⟨s', hs', hiff⟩ := parse_print_transform_iff hparse hhost hfirm
  exact ⟨s, hparse, hhost, hfirm, hjoins, s', hs', hiff.2 hjoins⟩

/-- A host block without a semicolon at its end hands its last declaration over to the comment
behind the block: written and read again, the comment is a part of the value. -/
theorem transform_loses_comment :
    (parse ":host\x7ba:b\x7d/*c*/".toList).toOption.map (fun s => (s.transform {}).bare) =
        some ⟨[.declaration ⟨[], ['a'], [], ['b'], []⟩, .comment ⟨[], ['c']⟩], {}⟩ ∧
      ((parse ":host\x7ba:b\x7d/*c*/".toList).toOption.bind
        fun s => (parse (s.transform {}).print).toOption).map bare =
        some ⟨[.declaration ⟨[], ['a'], [], "b/*c*/".toList, []⟩], {}⟩ := by
  decide +kernel

end Sheet

end HostSheet
