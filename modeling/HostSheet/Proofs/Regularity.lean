import Mathlib
import HostSheet.Proofs.Reprinting

set_option autoImplicit false

/-!
# What every stylesheet has in common

Reading makes only some of the trees there are (`Sheet.IsRegular`).  Their gaps hold blanks, an
at-rule without parameters has no gap in front of them, no comment holds the mark that ends it,
and a list says that its last statement has a semicolon only if it ends in a statement, comments
apart.  Rewriting takes host rules out of their lists and puts the nodes of their blocks in their
places, and still leaves a regular stylesheet (`Sheet.IsRegular.transform`).

The semicolon flag is what makes this delicate.  Its invariant speaks of the last node of a list
only, but both recursions work from the front, so it is carried in the form of `endsInStatement`,
which knows what stood in front of the nodes.
-/

namespace HostSheet

open Syntax

/-! ## Comments -/

namespace Syntax.Token

/-- A comment ends at the first mark that can end it. -/
theorem splitComment_eq_iff {body r : Text} :
    splitComment (body ++ '*' :: '/' :: r) = (body, some r) ↔
      Text.occursIn ['*', '/'] body = false := by
  rw [← Bool.not_eq_true, Text.occursIn_iff]
  induction body with
  | nil => simp [splitComment]
  | cons c body ih =>
    by_cases hend : c = '*' ∧ ∃ x, body = '/' :: x
    · obtain ⟨rfl, x, rfl⟩ := hend
      refine iff_of_false (fun h => ?_) (not_not_intro ⟨[], x, rfl⟩)
      cases h
    · have hopen : ∀ x, c = '*' → body ++ '*' :: '/' :: r ≠ '/' :: x := by
        rintro x rfl hx
        cases body with
        | nil => cases hx
        | cons a body =>
          obtain ⟨rfl, _⟩ := List.cons.inj hx
          exact hend ⟨rfl, body, rfl⟩
      have hmark : ¬['*', '/'] <+: c :: body := by
        rintro ⟨x, hx⟩
        obtain ⟨rfl, rfl⟩ := List.cons.inj hx
        exact hend ⟨rfl, x, rfl⟩
      rw [List.cons_append, splitComment.eq_3 c _ hopen, List.infix_cons_iff, or_iff_right hmark,
        ← ih]
      constructor
      · intro h
        obtain ⟨hbody, hrest⟩ := Prod.mk.inj h
        exact Prod.ext (List.cons.inj hbody).2 hrest
      · intro h
        rw [h]

/-- A comment without the mark that ends it is a token in front of any text. -/
theorem parted_comment {body : Text} (h : Text.occursIn ['*', '/'] body = false) (w : Text) :
    Parted [.comment body true] w := by
  have hread : read '/' ('*' :: (body ++ '*' :: '/' :: w)) = (.comment body true, w) := by
    change readComment (body ++ '*' :: '/' :: w) = _
    rw [readComment, splitComment_eq_iff.2 h]
  refine parted_cons_iff.2 ⟨⟨'/', '*' :: (body ++ ['*', '/']), rfl, ?_⟩, parted_nil _⟩
  rw [List.cons_append, List.append_assoc]
  exact hread

/-- A comment that was read does not hold the mark that ends it. -/
theorem IsRead.not_occursIn_comment {body : Text} (h : (comment body true).IsRead) :
    Text.occursIn ['*', '/'] body = false := by
  obtain ⟨c, r, hread⟩ := h
  obtain ⟨u, htext, hr⟩ := splits_read c r
  generalize (read c r).2 = rest at hr
  subst hr
  rw [hread] at htext
  obtain ⟨rfl, rfl⟩ := List.cons.inj htext
  have hmark : read '/' ('*' :: body ++ ['*', '/'] ++ rest) =
      readComment (body ++ '*' :: '/' :: rest) := by
    rw [List.append_assoc]
    rfl
  refine (splitComment_eq_iff (r := rest)).1 ?_
  have happ := splitComment_append (body ++ '*' :: '/' :: rest)
  change (read '/' ('*' :: body ++ ['*', '/'] ++ rest)).1 = _ at hread
  rw [hmark, readComment] at hread
  cases hs : splitComment (body ++ '*' :: '/' :: rest) with
  | mk b rest' =>
    rw [hs] at hread happ
    cases rest' with
    | none => cases hread
    | some rest' =>
      cases hread
      have hrest := List.append_cancel_left happ
      rw [(List.cons.inj (List.cons.inj hrest).2).2]

end Syntax.Token

/-! ## Parameters -/

namespace Draft

/-- A statement with content has a character that is no blank: the blanks outside brackets are
kept back. -/
def HasMark (d : Draft) : Prop := IsGap d.content → d.content = [] ∧ d.brackets = []

theorem HasMark.take? {d d' : Draft} {t : Token} (hd : d.HasMark) (ht : t.IsRead)
    (h : d.take? t = some d') : d'.HasMark := by
  intro hgap
  by_cases hb : d.brackets = []
  case neg =>
    unfold Draft.take? at h
    rw [if_pos hb] at h
    obtain rfl := Option.some.inj h
    have hcontent : IsGap (d.content ++ d.gap ++ t.text) := by rwa [← content_add]
    rw [List.append_assoc] at hcontent
    exact absurd (hd fun c hc => hcontent c (List.mem_append_left _ hc)).2 hb
  by_cases hblank : ∃ c, t = .blank c
  · obtain ⟨c, rfl⟩ := hblank
    rw [take?_blank hb] at h
    obtain rfl := Option.some.inj h
    exact hd hgap
  · cases takes_of_take? h with
    | blank c => exact absurd ⟨c, rfl⟩ hblank
    | name name => exact hd hgap
    | colon =>
      rw [content_addColon] at hgap
      cases hgap ':' (by simp)
    | add t brackets =>
      obtain ⟨c, u, htext⟩ := List.exists_cons_of_ne_nil ht.text_ne_nil
      have hcontent : IsGap (d.content ++ d.gap ++ t.text) := by rwa [← content_add]
      have hc := hcontent c (by rw [htext]; simp)
      exact absurd ⟨c, ht.eq_blank htext hc⟩ hblank

/-- The head of an at-rule without parameters has no gap in front of them. -/
theorem HasMark.afterName_eq_nil {d : Draft} (hd : d.HasMark) (before between name : Text)
    (h : (d.atHead before between name).params = []) :
    (d.atHead before between name).afterName = [] := by
  have hgap : IsGap d.content := List.dropWhile_eq_nil_iff.1 h
  unfold atHead
  rw [(hd hgap).1]
  rfl

end Draft

/-! ## The end of a list -/

namespace Node

/-- The last node that is no comment. -/
def lastNode? (ns : List Node) : Option Node := (ns.filter (!·.isComment)).getLast?

/-- Whether nodes end in a statement, comments apart, if those in front of them do as `base`
says. -/
def endsInStatement (base : Bool) (ns : List Node) : Bool :=
  ns.foldl (fun b n => if n.isComment then b else n.isStatement) base

/-- A list has a last semicolon only behind a statement. -/
def FlagFits (ns : List Node) (terminated : Bool) : Prop :=
  terminated = true → ∃ n, lastNode? ns = some n ∧ n.isStatement = true

theorem endsInStatement_cons (base : Bool) (n : Node) (ns : List Node) :
    endsInStatement base (n :: ns) =
      endsInStatement (if n.isComment then base else n.isStatement) ns := rfl

theorem endsInStatement_append (base : Bool) (ms ns : List Node) :
    endsInStatement base (ms ++ ns) = endsInStatement (endsInStatement base ms) ns :=
  List.foldl_append

theorem lastNode?_cons (n : Node) (ns : List Node) :
    lastNode? (n :: ns) = (lastNode? ns).or (if n.isComment then none else some n) := by
  unfold lastNode?
  rw [List.filter_cons]
  cases hn : n.isComment with
  | true => simp
  | false =>
    rw [Bool.not_false, if_pos rfl, List.getLast?_cons]
    cases (ns.filter (!·.isComment)).getLast? <;> rfl

theorem endsInStatement_eq (base : Bool) (ns : List Node) :
    endsInStatement base ns = ((lastNode? ns).map isStatement).getD base := by
  induction ns generalizing base with
  | nil => rfl
  | cons n ns ih =>
    rw [endsInStatement_cons, ih, lastNode?_cons]
    cases lastNode? ns with
    | some m => rfl
    | none => cases n.isComment <;> rfl

theorem endsInStatement_iff {ns : List Node} :
    endsInStatement false ns = true ↔ ∃ n, lastNode? ns = some n ∧ n.isStatement = true := by
  rw [endsInStatement_eq]
  cases lastNode? ns with
  | none => simp
  | some n => simp

theorem flagFits_iff {ns : List Node} {terminated : Bool} :
    FlagFits ns terminated ↔ (terminated = true → endsInStatement false ns = true) := by
  rw [FlagFits, endsInStatement_iff]

/-- Nodes that end in a statement do so whatever stands in front of them. -/
theorem endsInStatement_of_false {ns : List Node} (h : endsInStatement false ns = true)
    (base : Bool) : endsInStatement base ns = true := by
  obtain ⟨n, hlast, hn⟩ := endsInStatement_iff.1 h
  rw [endsInStatement_eq, hlast]
  exact hn

theorem endsInStatement_of_comments {ns : List Node} (h : ns.all isComment = true)
    (base : Bool) : endsInStatement base ns = base := by
  induction ns with
  | nil => rfl
  | cons n ns ih =>
    rw [List.all_cons, Bool.and_eq_true] at h
    rw [endsInStatement_cons, if_pos h.1, ih h.2]

/-- Only the kinds of the nodes count. -/
theorem endsInStatement_map {f : Node → Node} (hcomment : ∀ n, (f n).isComment = n.isComment)
    (hstatement : ∀ n, (f n).isStatement = n.isStatement) (base : Bool) (ns : List Node) :
    endsInStatement base (ns.map f) = endsInStatement base ns := by
  unfold endsInStatement
  rw [List.foldl_map]
  simp only [hcomment, hstatement]

theorem isStatement_withBefore (gap : Text) (n : Node) :
    (n.withBefore gap).isStatement = n.isStatement := by
  cases n <;> rfl

theorem endsInStatement_hoist (base : Bool) (gap : Text) (ns : List Node) :
    endsInStatement base (TreeMode.hoist gap ns) = endsInStatement base ns := by
  cases ns with
  | nil => rfl
  | cons n ns =>
    rw [TreeMode.hoist, endsInStatement_cons, endsInStatement_cons, isComment_withBefore,
      isStatement_withBefore, endsInStatement_map]
    · intro m
      split
      · exact isComment_withBefore _ m
      · rfl
    · intro m
      split
      · exact isStatement_withBefore _ m
      · rfl

theorem endsInStatement_mapDeclarationsIn (f : Declaration → Declaration) (base : Bool)
    (ns : List Node) :
    endsInStatement base (mapDeclarationsIn f ns) = endsInStatement base ns := by
  induction ns generalizing base with
  | nil => rfl
  | cons n ns ih =>
    rw [mapDeclarationsIn, endsInStatement_cons, endsInStatement_cons, ih]
    cases n <;> rfl

theorem isComment_transformNode (o : Options) (n : Node) :
    (TreeMode.transformNode o n).isComment = n.isComment := by
  cases n <;> simp only [TreeMode.transformNode, isComment]

theorem isStatement_transformNode (o : Options) (n : Node) :
    (TreeMode.transformNode o n).isStatement = n.isStatement := by
  cases n <;> simp only [TreeMode.transformNode, isStatement]

end Node

/-! ## Regular nodes -/

namespace Node

/-- An at-rule has a gap for its parameters only if it has parameters, and no ending if it has no
block.  A comment does not hold the mark that ends it. -/
def HasTexts : Node → Prop
  | atBlock head _ _ => head.params = [] → head.afterName = []
  | atStatement head ending => (head.params = [] → head.afterName = []) ∧ ending = {}
  | comment c => Text.occursIn ['*', '/'] c.text = false
  | _ => True

/-- The last statement of a block has a semicolon only if there is one. -/
def HasFlag : Node → Prop
  | rule _ nodes ending => FlagFits nodes ending.terminated
  | atBlock _ nodes ending => FlagFits nodes ending.terminated
  | _ => True

/-- A node as reading makes it. -/
structure IsRegular (n : Node) : Prop where
  gaps : n.HasGaps
  texts : n.HasTexts
  flag : n.HasFlag

theorem hasFlag_node {head : BlockHead} {ns : List Node} {e : Ending} :
    (head.node ns e).HasFlag ↔ FlagFits ns e.terminated := by
  cases head <;> exact Iff.rfl

theorem hasFlag_of_isStatement {n : Node} (h : n.isStatement = true) : n.HasFlag := by
  cases n with
  | atStatement head ending => trivial
  | declaration d => trivial
  | _ => cases h

theorem makes_hasTexts :
    Reader.Makes (fun n => n.HasGaps ∧ n.HasTexts) Draft.HasMark where
  fresh := fun _ _ => ⟨rfl, rfl⟩
  takes := fun hd ht _ h => hd.take? ht h
  comment := fun hbefore hread => ⟨hbefore, hread.not_occursIn_comment⟩
  node := by
    intro d before after n hd hbefore hafter h
    refine ⟨makes_hasGaps.node trivial hbefore hafter h, ?_⟩
    rcases Draft.node_cases h with ⟨name, _, rfl⟩ | ⟨k, _, _, rfl⟩
    · exact ⟨hd.afterName_eq_nil _ _ _, rfl⟩
    · trivial
  block := by
    intro d before head nodes ending hd hgap hbefore h hnodes hafter
    have hinside := everyIn_imp₂ (fun n hn _ => hn.1) hnodes hnodes
    refine ⟨makes_hasGaps.block trivial hgap hbefore h hinside hafter, ?_⟩
    rcases Draft.blockHead_cases h with ⟨name, _, rfl⟩ | ⟨_, rfl⟩
    · exact hd.afterName_eq_nil _ _ _
    · trivial

end Node

/-- What spells nodes sets a flag only behind a statement. -/
theorem Spells.hasFlag {inBlock terminated : Bool} {ts : List Token} {ns : List Node} {e : Ending}
    (h : Spells inBlock terminated ts ns e) :
    Node.EveryIn Node.HasFlag ns ∧
      (e.terminated = true → Node.endsInStatement terminated ns = true) := by
  induction h with
  | nil hgap => exact ⟨trivial, id⟩
  | last hbefore hs hn hgap hb =>
    refine ⟨Node.everyIn_singleton.2 ?_, nofun⟩
    rw [Node.every_of_children?_eq_none (Draft.children?_of_node hn)]
    exact Node.hasFlag_of_isStatement (Node.isStatement_of_node hn)
  | comment hbefore h ih => exact ⟨⟨trivial, ih.1⟩, ih.2⟩
  | @statement _ _ before gap us ts d n ns e hbefore hs hb hgap hn h ih =>
    refine ⟨⟨?_, ih.1⟩, ?_⟩
    · rw [Node.every_of_children?_eq_none (Draft.children?_of_node hn)]
      exact Node.hasFlag_of_isStatement (Node.isStatement_of_node hn)
    · rw [Node.endsInStatement_cons, Draft.isComment_of_node hn, Node.isStatement_of_node hn]
      exact ih.2
  | @block _ _ before gap us inner ts d head nodes ns ending e hbefore hs hb hgap hh hinner h
      ihinner ih =>
    refine ⟨⟨Node.every_node.2 ⟨?_, ihinner.1⟩, ih.1⟩, ?_⟩
    · exact Node.hasFlag_node.2 (Node.flagFits_iff.2 ihinner.2)
    · rw [Node.endsInStatement_cons, BlockHead.isComment_node, Node.isStatement_node]
      exact ih.2

/-! ## Rewriting -/

namespace Node

theorem IsRegular.withBefore {n : Node} (h : n.IsRegular) {gap : Text} (hgap : IsLoose gap) :
    (n.withBefore gap).IsRegular := by
  cases n with
  | rule head nodes ending => exact ⟨⟨hgap, h.gaps.2⟩, h.texts, h.flag⟩
  | atBlock head nodes ending => exact ⟨⟨hgap, h.gaps.2⟩, h.texts, h.flag⟩
  | atStatement head ending => exact ⟨⟨hgap, h.gaps.2⟩, h.texts, h.flag⟩
  | declaration d => exact ⟨⟨hgap, h.gaps.2⟩, h.texts, h.flag⟩
  | comment c => exact ⟨hgap, h.texts, h.flag⟩

theorem IsRegular.isLoose_before {n : Node} (h : n.IsRegular) : IsLoose n.before := by
  cases n with
  | comment c => exact h.gaps
  | _ => exact h.gaps.1

theorem everyIn_isRegular_hoist {gap : Text} (hgap : IsLoose gap) {ns : List Node}
    (h : EveryIn IsRegular ns) : EveryIn IsRegular (TreeMode.hoist gap ns) :=
  everyIn_hoist (fun hn hgap => hn.withBefore hgap) hgap h

/-- The flag of a list in which the block of a host rule took the place of the rule. -/
theorem endsInStatement_of_terminatedAfter {head : RuleHead} {nodes rest : List Node}
    {ending : Ending} {terminated base : Bool} (hblock : FlagFits nodes ending.terminated)
    (hlist : terminated = true → endsInStatement base (.rule head nodes ending :: rest) = true)
    (h : TreeMode.terminatedAfter rest nodes ending terminated = true) :
    endsInStatement base (TreeMode.hoist head.before nodes ++ rest) = true := by
  rw [endsInStatement_append, endsInStatement_hoist]
  unfold TreeMode.terminatedAfter at h
  split at h
  · -- The block's own last node becomes the last node of the list.
    rename_i hlast
    rw [Bool.and_eq_true] at hlast
    rw [endsInStatement_of_comments hlast.1]
    exact endsInStatement_of_false (flagFits_iff.1 hblock h) base
  · -- What was behind the rule goes on to decide, for the rule itself is no statement.
    exact endsInStatement_of_false (hlist h) _

/-- Rewriting sets a flag only behind a statement. -/
theorem endsInStatement_transformNodes (o : Options) {ns : List Node} {terminated base : Bool}
    (hns : EveryIn IsRegular ns) (hflag : terminated = true → endsInStatement base ns = true)
    (h : (TreeMode.transformNodes o ns terminated).2 = true) :
    endsInStatement base (TreeMode.transformNodes o ns terminated).1 = true := by
  refine (TreeMode.induction o (P := fun _ => True)
    (Q := fun ns terminated => ∀ base, EveryIn IsRegular ns →
      (terminated = true → endsInStatement base ns = true) →
      (TreeMode.transformNodes o ns terminated).2 = true →
      endsInStatement base (TreeMode.transformNodes o ns terminated).1 = true)
    ?_ ?_ ?_ ?nil ?host ?cons).2 ns terminated base hns hflag h
  · exact fun _ _ _ _ => trivial
  · exact fun _ _ _ _ => trivial
  · exact fun _ _ => trivial
  case nil =>
    intro terminated base _ hflag h
    rw [TreeMode.transformNodes] at h ⊢
    exact hflag h
  case host =>
    intro head nodes ending rest terminated hhost ih base hns hflag h
    rw [TreeMode.transformNodes_host hhost] at h ⊢
    refine ih base (everyIn_append.2 ⟨?_, hns.2⟩)
      (endsInStatement_of_terminatedAfter hns.1.1.flag hflag) h
    exact everyIn_isRegular_hoist hns.1.1.isLoose_before hns.1.2
  case cons =>
    intro n rest terminated hhost _ ih base hns hflag h
    rw [TreeMode.transformNodes_cons hhost] at h ⊢
    rw [endsInStatement_cons, isComment_transformNode, isStatement_transformNode]
    exact ih _ hns.2 hflag h

/-- A regular node that is rewritten is regular. -/
theorem isRegular_transformNode (o : Options) {n : Node} (h : Every IsRegular n) :
    (TreeMode.transformNode o n).IsRegular := by
  have hflag : ∀ {nodes : List Node} {ending : Ending}, EveryIn IsRegular nodes →
      FlagFits nodes ending.terminated →
      FlagFits (TreeMode.transformNodes o nodes ending.terminated).1
        (TreeMode.transformNodes o nodes ending.terminated).2 := fun hnodes hfits =>
    flagFits_iff.2 (endsInStatement_transformNodes o hnodes (flagFits_iff.1 hfits))
  cases n with
  | rule head nodes ending =>
    rw [TreeMode.transformNode]
    exact ⟨h.1.gaps, trivial, hflag h.2 h.1.flag⟩
  | atBlock head nodes ending =>
    rw [TreeMode.transformNode]
    exact ⟨h.1.gaps, h.1.texts, hflag h.2 h.1.flag⟩
  | _ =>
    rw [TreeMode.transformNode_of_children?_eq_none rfl]
    exact h

theorem isRegular_mapDeclarations {n : Node} (h : n.IsRegular) :
    (n.mapDeclarations TreeMode.shrinkGap).IsRegular := by
  have hflag : ∀ {nodes : List Node} {terminated : Bool}, FlagFits nodes terminated →
      FlagFits (mapDeclarationsIn TreeMode.shrinkGap nodes) terminated := by
    intro nodes terminated hfits
    rw [flagFits_iff, endsInStatement_mapDeclarationsIn]
    exact flagFits_iff.1 hfits
  cases n with
  | rule head nodes ending =>
    rw [mapDeclarations]
    exact ⟨h.gaps, trivial, hflag h.flag⟩
  | atBlock head nodes ending =>
    rw [mapDeclarations]
    exact ⟨h.gaps, h.texts, hflag h.flag⟩
  | declaration d =>
    rw [mapDeclarations]
    exact h.withBefore (TreeMode.isLoose_withoutEmptyLine h.isLoose_before)
  | _ => exact h

end Node

/-! ## Stylesheets -/

namespace Sheet

/-- A stylesheet as reading makes it. -/
structure IsRegular (s : Sheet) : Prop where
  nodes : Node.EveryIn Node.IsRegular s.nodes
  after : IsLoose s.ending.after
  flag : Node.FlagFits s.nodes s.ending.terminated

variable {css : Text} {s : Sheet}

theorem isRegular_of_parse (h : parse css = .ok s) : s.IsRegular := by
  obtain ⟨htexts, hafter⟩ := every_of_parse Node.makes_hasTexts h
  obtain ⟨hflags, hflag⟩ := (spells_of_parse h).hasFlag
  exact ⟨Node.everyIn_imp₂ (fun n hn hf => ⟨hn.1, hn.2, hf⟩) htexts hflags, hafter,
    Node.flagFits_iff.2 hflag⟩

/-- Rewriting leaves a regular stylesheet regular. -/
theorem IsRegular.transform (h : s.IsRegular) (o : Options) : (s.transform o).IsRegular := by
  refine ⟨?_, h.after, ?_⟩
  · refine Node.everyIn_mapDeclarationsIn (fun hn => Node.isRegular_mapDeclarations hn) ?_
    exact Node.everyIn_transformNodes (fun hn hgap => hn.withBefore hgap) o
      (fun hn => hn.isLoose_before) (fun hn _ => Node.isRegular_transformNode o hn) s.nodes
      s.ending.terminated h.nodes
  · refine Node.flagFits_iff.2 fun hflag => ?_
    rw [Sheet.transform, mapDeclarations, Node.endsInStatement_mapDeclarationsIn]
    exact Node.endsInStatement_transformNodes o h.nodes (Node.flagFits_iff.1 h.flag) hflag

/-- A stylesheet that was parsed is regular, and so is what it is rewritten to: at every depth
the gaps hold blanks, and between nodes semicolons, a colon is all there is between a property
and its value, an at-rule without parameters has no gap for them, no comment holds the mark that
ends it, and the last node that is no comment is a statement where the semicolon flag is set. -/
theorem isRegular_of_parse_transform (h : parse css = .ok s) (o : Options) :
    s.IsRegular ∧ (s.transform o).IsRegular :=
  ⟨isRegular_of_parse h, (isRegular_of_parse h).transform o⟩

/-- The last host rule ends in a host rule, and a comment stands behind both. -/
theorem isRegular_of_parse_transform_nested :
    ∃ s, parse ":host{a:b;;:host{@c;}/*d*/} ;/*e*/".toList = .ok s ∧
      s.IsRegular ∧ (s.transform {}).IsRegular ∧ s.ending.terminated = false ∧
        (s.transform {}).ending.terminated = true := by
  let s : Sheet := ⟨[.rule ⟨[], ":host".toList, []⟩
    [.declaration ⟨[], ['a'], [':'], ['b'], []⟩,
      .rule ⟨[';'], ":host".toList, []⟩ [.atStatement ⟨[], ['c'], [], [], []⟩ {}] ⟨[], true⟩,
      .comment ⟨[], ['d']⟩] {}, .comment ⟨[' ', ';'], ['e']⟩], {}⟩
  have hparse : parse ":host{a:b;;:host{@c;}/*d*/} ;/*e*/".toList = .ok s :=
    parse_of_toOption (by decide +kernel)
  obtain ⟨hs, ht⟩ := isRegular_of_parse_transform hparse {}
  exact ⟨s, hparse, hs, ht, rfl, by decide +kernel⟩

end Sheet

end HostSheet
