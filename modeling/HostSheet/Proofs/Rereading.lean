import Mathlib
import HostSheet.Proofs.Listing
import HostSheet.Proofs.Standing

set_option autoImplicit false

/-!
# Nodes read back from what is written for them

Nodes that stand are read back from their own text, up to the gaps, with one exception: a
comment behind a statement without a semicolon becomes a part of the statement, so that there
is a node less (`Sheet.exists_parse_print`).  Reading makes no such comments, but a stylesheet
that was put together from nodes may have them (`Sheet.joins`).
-/

namespace HostSheet

open Syntax

namespace Node

/-! ## Trees without their gaps -/

mutual

/-- A node without its gaps and semicolons. -/
def bare : Node → Node
  | rule head nodes _ => rule ⟨[], head.selector, []⟩ (bareIn nodes) {}
  | atBlock head nodes _ => atBlock ⟨[], head.name, [], head.params, []⟩ (bareIn nodes) {}
  | atStatement head _ => atStatement ⟨[], head.name, [], head.params, []⟩ {}
  | declaration d => declaration ⟨[], d.prop, [], d.value, []⟩
  | comment c => comment ⟨[], c.text⟩

/-- Nodes without their gaps and semicolons. -/
def bareIn : List Node → List Node
  | [] => []
  | n :: ns => n.bare :: bareIn ns

end

mutual

/-- The number of comments in a node. -/
def comments : Node → Nat
  | rule _ nodes _ => commentsIn nodes
  | atBlock _ nodes _ => commentsIn nodes
  | comment _ => 1
  | _ => 0

/-- The number of comments in nodes. -/
def commentsIn : List Node → Nat
  | [] => 0
  | n :: ns => n.comments + commentsIn ns

end

theorem comments_bare_and :
    (∀ n : Node, n.bare.comments = n.comments) ∧
      ∀ ns, commentsIn (bareIn ns) = commentsIn ns := by
  refine Node.induction ?rule ?atBlock ?leaf rfl ?cons
  case rule | atBlock =>
    intro head nodes ending ih
    rw [bare, comments, comments, ih]
  case leaf =>
    intro n hn
    cases n with
    | rule head nodes ending => cases hn
    | atBlock head nodes ending => cases hn
    | _ => simp only [bare, comments]
  case cons =>
    intro n ns ihn ihns
    rw [bareIn, commentsIn, commentsIn, ihn, ihns]

theorem comments_congr {m n : Node} (h : m.bare = n.bare) : m.comments = n.comments := by
  rw [← comments_bare_and.1 m, h, comments_bare_and.1]

theorem commentsIn_congr {ms ns : List Node} (h : bareIn ms = bareIn ns) :
    commentsIn ms = commentsIn ns := by
  rw [← comments_bare_and.2 ms, h, comments_bare_and.2]

/-! ## Comments that are taken in -/

/-- Whether a statement takes in a comment behind it: it has no semicolon of its own, and none
stands in front of the comment. -/
def takesComment (terminated : Bool) (n : Node) : List Node → Bool
  | comment c :: ns =>
    !terminated && n.isStatement && ns.all isComment && !c.before.contains ';'
  | _ => false

mutual

/-- Whether a statement in a node takes in a comment behind it. -/
def joins : Node → Bool
  | rule _ nodes ending => joinsIn ending.terminated nodes
  | atBlock _ nodes ending => joinsIn ending.terminated nodes
  | _ => false

/-- Whether a statement among nodes takes in a comment behind it. -/
def joinsIn (terminated : Bool) : List Node → Bool
  | [] => false
  | n :: ns => n.joins || n.takesComment terminated ns || joinsIn terminated ns

end

end Node

/-! ## Texts of nodes -/

/-- Nodes in the place of `ns`: the same up to the gaps, or, if a comment is taken in, with fewer
comments. -/
def Node.Replaces (joined : Bool) (ns' ns : List Node) : Prop :=
  if joined then commentsIn ns' < commentsIn ns else bareIn ns' = bareIn ns

namespace Node.Replaces

variable {joined : Bool} {ns ns' : List Node}

theorem commentsIn_le (h : Replaces joined ns' ns) : commentsIn ns' ≤ commentsIn ns := by
  cases joined with
  | false => exact (commentsIn_congr h).le
  | true => exact Nat.le_of_lt h

theorem cons (h : Replaces joined ns' ns) {n m : Node} (hn : n.bare = m.bare) :
    Replaces joined (n :: ns') (m :: ns) := by
  cases joined with
  | false =>
    have hrest : bareIn ns' = bareIn ns := h
    change bareIn (n :: ns') = bareIn (m :: ns)
    rw [bareIn, bareIn, hn, hrest]
  | true =>
    have hrest : commentsIn ns' < commentsIn ns := h
    change commentsIn (n :: ns') < commentsIn (m :: ns)
    rw [commentsIn, commentsIn, comments_congr hn]
    exact Nat.add_lt_add_left hrest _

theorem trans_bare (h : Replaces joined ns' ns) {ms : List Node} (hms : bareIn ns = bareIn ms) :
    Replaces joined ns' ms := by
  cases joined with
  | false => exact Eq.trans h hms
  | true => exact lt_of_lt_of_eq h (commentsIn_congr hms)

theorem block (h : Replaces joined ns' ns) {joined' : Bool} {nodes nodes' : List Node}
    (hnodes : Replaces joined' nodes' nodes) (head : BlockHead) (e e' : Ending) :
    Replaces (joined' || joined) (head.node nodes' e' :: ns') (head.node nodes e :: ns) := by
  have hcomments : ∀ (ms : List Node) (e : Ending), (head.node ms e).comments = commentsIn ms := by
    intro ms e
    cases head <;> simp only [BlockHead.node, comments]
  have hbare : ∀ {ms ms' : List Node}, bareIn ms = bareIn ms' →
      (head.node ms e').bare = (head.node ms' e).bare := by
    intro ms ms' h
    cases head <;> simp only [BlockHead.node, bare, h]
  cases joined' with
  | false => exact h.cons (hbare hnodes)
  | true =>
    have hlt : commentsIn nodes' < commentsIn nodes := hnodes
    change commentsIn (_ :: ns') < commentsIn (_ :: ns)
    rw [commentsIn, commentsIn, hcomments, hcomments]
    exact Nat.add_lt_add_of_lt_of_le hlt h.commentsIn_le

end Node.Replaces

/-- The text is read as the nodes with this ending, wherever a list may end. -/
def Yields (inBlock terminated : Bool) (text : Text) (ns : List Node) (e : Ending) : Prop :=
  ∃ ts, Spells inBlock terminated ts ns e ∧
    ∀ w, (w = [] ∨ ∃ v, w = '\x7d' :: v) → Token.ofText (text ++ w) = ts ++ Token.ofText w

namespace Yields

variable {inBlock terminated : Bool} {text : Text} {ns : List Node} {e : Ending}

theorem nil {gap : Text} (hgap : IsLoose gap) :
    Yields inBlock terminated gap [] ⟨gap, terminated⟩ :=
  ⟨_, .nil hgap, fun w _ => Token.ofText_gap_append hgap w⟩

theorem comment (h : Yields inBlock terminated text ns e) {c : Comment}
    (hc : (Node.comment c).Stands) :
    Yields inBlock terminated (c.print ++ text) (.comment c :: ns) e := by
  obtain ⟨ts, hspells, htokens⟩ := h
  obtain ⟨hbefore, v, hbody⟩ := hc
  refine ⟨_, .comment hbefore hspells, fun w hw => ?_⟩
  have htext : c.print ++ text ++ w =
      c.before ++ ((Token.comment c.text true).text ++ (text ++ w)) := by
    simp [Comment.print, Token.text]
  rw [htext, Token.ofText_gap_append hbefore, Token.ofText_comment hbody, htokens w hw,
    List.append_assoc, List.cons_append]

/-- A statement in front of its semicolon. -/
theorem statement (h : Yields inBlock true text ns e) {us : List Token} {d : Draft}
    {before gap : Text} {n : Node} (hs : Standing us d) (hbefore : IsLoose before)
    (hgap : IsGap gap) (hn : d.node before gap = .ok n) :
    Yields inBlock terminated (before ++ Token.textOf us ++ gap ++ ';' :: text) (n :: ns) e := by
  obtain ⟨ts, hspells, htokens⟩ := h
  refine ⟨_, .statement hbefore hs.statement hs.brackets hgap hn hspells, fun w hw => ?_⟩
  rw [List.append_assoc _ (';' :: text), List.cons_append,
    hs.ofText_append hbefore hgap (halts_cons rfl _), Token.ofText_semicolon, htokens w hw,
    List.append_assoc _ (.semicolon :: ts), List.cons_append]

/-- A statement at the end of its list. -/
theorem last {us : List Token} {d : Draft} {before gap : Text} {n : Node} (hs : Standing us d)
    (hbefore : IsLoose before) (hgap : IsGap gap) (hn : d.node before [] = .ok n) :
    Yields inBlock terminated (before ++ Token.textOf us ++ gap) [n] ⟨gap, false⟩ := by
  refine ⟨_, .last hbefore hs.statement hn hgap (.inl hs.brackets), fun w hw =>
    hs.ofText_append hbefore hgap ?_⟩
  rcases hw with rfl | ⟨v, rfl⟩
  · exact halts_nil
  · exact halts_cons rfl _

/-- A block in front of other nodes. -/
theorem block (h : Yields inBlock false text ns e) {nodes : List Node} {body : Text}
    {ending : Ending} (hbody : Yields true false body nodes ending) {head : BlockHead}
    (hhead : head.Stands) :
    Yields inBlock terminated (head.print ++ '\x7b' :: (body ++ '\x7d' :: text))
      (head.node nodes ending :: ns) e := by
  obtain ⟨ts, hspells, htokens⟩ := h
  obtain ⟨inner, hinner, hbraces⟩ := hbody
  obtain ⟨hs, hhs, hparted⟩ := hhead
  have hread : ∀ t ∈ hs, t.IsRead := fun t ht => (hparted []).isRead ht
  refine ⟨_, hhs.block hinner hspells, fun w hw => ?_⟩
  rw [← hhs.textOf_eq hread, List.append_assoc, List.cons_append, List.append_assoc,
    List.cons_append, hparted, Token.ofText_opener_curly, hbraces _ (.inr ⟨_, rfl⟩),
    Token.ofText_closer_curly, htokens w hw, List.append_assoc, List.cons_append,
    List.append_assoc, List.cons_append]

theorem parse (h : Yields false false text ns e) : Sheet.parse text = .ok ⟨ns, e⟩ := by
  obtain ⟨ts, hspells, htokens⟩ := h
  have htext := htokens [] (.inl rfl)
  rw [List.append_nil, Token.ofText.eq_def [], List.append_nil] at htext
  exact Sheet.parse_of_spells (by rw [htext]; exact hspells)

end Yields

/-- The text is read as a list of nodes in the place of `ns`, wherever a list may end. -/
def Rereads (joined : Bool) (ns : List Node) (text : Text) : Prop :=
  ∀ inBlock terminated, ∃ ts ns' e, Spells inBlock terminated ts ns' e ∧
    Node.Replaces joined ns' ns ∧
    ∀ w, (w = [] ∨ ∃ v, w = '\x7d' :: v) → Token.ofText (text ++ w) = ts ++ Token.ofText w

theorem rereads_iff {joined : Bool} {ns : List Node} {text : Text} :
    Rereads joined ns text ↔ ∀ inBlock terminated, ∃ ns' e,
      Yields inBlock terminated text ns' e ∧ Node.Replaces joined ns' ns := by
  refine forall₂_congr fun inBlock terminated => ⟨?_, ?_⟩
  · rintro ⟨ts, ns', e, hspells, hreplaces, htokens⟩
    exact ⟨ns', e, ⟨ts, hspells, htokens⟩, hreplaces⟩
  · rintro ⟨ns', e, ⟨ts, hspells, htokens⟩, hreplaces⟩
    exact ⟨ts, ns', e, hspells, hreplaces, htokens⟩

namespace Rereads

variable {joined : Bool} {ns : List Node} {text : Text}

theorem nil {gap : Text} (hgap : IsLoose gap) : Rereads false [] gap :=
  rereads_iff.2 fun _ _ => ⟨_, _, .nil hgap, rfl⟩

theorem congr (h : Rereads joined ns text) {ms : List Node}
    (hms : Node.bareIn ns = Node.bareIn ms) : Rereads joined ms text := by
  rw [rereads_iff] at h ⊢
  intro inBlock terminated
  obtain ⟨ns', e, hyields, hreplaces⟩ := h inBlock terminated
  exact ⟨ns', e, hyields, hreplaces.trans_bare hms⟩

theorem comment (h : Rereads joined ns text) {c : Comment}
    (hc : (Node.comment c).Stands) : Rereads joined (.comment c :: ns) (c.print ++ text) := by
  rw [rereads_iff] at h ⊢
  intro inBlock terminated
  obtain ⟨ns', e, hyields, hreplaces⟩ := h inBlock terminated
  exact ⟨_, e, hyields.comment hc, hreplaces.cons rfl⟩

/-- A statement in front of its semicolon. -/
theorem statement (h : Rereads joined ns text) {us : List Token} {d : Draft}
    {before gap : Text} {n m : Node} (hs : Standing us d) (hbefore : IsLoose before)
    (hgap : IsGap gap) (hn : d.node before gap = .ok n) (hm : n.bare = m.bare) :
    Rereads joined (m :: ns) (before ++ Token.textOf us ++ gap ++ ';' :: text) := by
  rw [rereads_iff] at h ⊢
  intro inBlock terminated
  obtain ⟨ns', e, hyields, hreplaces⟩ := h inBlock true
  exact ⟨_, e, hyields.statement hs hbefore hgap hn, hreplaces.cons hm⟩

/-- A statement at the end of its list. -/
theorem last {us : List Token} {d : Draft} {before gap : Text} {n m : Node} (hs : Standing us d)
    (hbefore : IsLoose before) (hgap : IsGap gap) (hn : d.node before [] = .ok n)
    (hm : n.bare = m.bare) : Rereads false [m] (before ++ Token.textOf us ++ gap) := by
  rw [rereads_iff]
  intro inBlock terminated
  have hreplaces : Node.Replaces false [] [] := rfl
  exact ⟨_, _, .last hs hbefore hgap hn, hreplaces.cons hm⟩

/-- A block in front of other nodes. -/
theorem block {joined' : Bool} {nodes : List Node} {body : Text} (h : Rereads joined ns text)
    (hbody : Rereads joined' nodes body) {head : BlockHead} (hhead : head.Stands) (e : Ending) :
    Rereads (joined' || joined) (head.node nodes e :: ns)
      (head.print ++ '\x7b' :: (body ++ '\x7d' :: text)) := by
  rw [rereads_iff] at h hbody ⊢
  intro inBlock terminated
  obtain ⟨ns', e', hyields, hreplaces⟩ := h inBlock false
  obtain ⟨nodes', ending, hinner, hnodes⟩ := hbody true false
  exact ⟨_, e', hyields.block hinner hhead, hreplaces.block hnodes head e ending⟩

/-- A comment that is taken in is missing among the nodes. -/
theorem of_lt (h : Rereads joined ns text) {ms : List Node}
    (hlt : Node.commentsIn ns < Node.commentsIn ms) : Rereads true ms text := by
  rw [rereads_iff] at h ⊢
  intro inBlock terminated
  obtain ⟨ns', e, hyields, hreplaces⟩ := h inBlock terminated
  exact ⟨ns', e, hyields, hreplaces.commentsIn_le.trans_lt hlt⟩

end Rereads

/-! ## Statements in front of comments -/

theorem IsLoose.exists_semicolon {t : Text} (h : IsLoose t) (hmem : ';' ∈ t) :
    ∃ g k, t = g ++ ';' :: k ∧ IsGap g ∧ IsLoose k := by
  obtain ⟨g, k, rfl, hg⟩ := List.eq_append_cons_of_mem hmem
  refine ⟨g, k, rfl, ?_, fun c hc => h c (List.mem_append_right _ (List.mem_cons_of_mem _ hc))⟩
  exact IsLoose.isGap (fun c hc => h c (List.mem_append_left _ hc)) hg

theorem Draft.exists_node_after {d : Draft} {before after : Text} {n : Node}
    (h : d.node before after = .ok n) (after' : Text) :
    ∃ n', d.node before after' = .ok n' ∧ n'.bare = n.bare := by
  rcases node_cases h with ⟨name, hname, rfl⟩ | ⟨k, hname, hk, rfl⟩
  · refine ⟨.atStatement (d.atHead before after' name) {}, by rw [node, hname], ?_⟩
    simp only [Node.bare, atHead]
  · refine ⟨.declaration (d.declaration before after' k), by rw [node, hname, hk], ?_⟩
    simp only [Node.bare, declaration]

theorem Draft.comments_of_node {d : Draft} {before after : Text} {n : Node}
    (h : d.node before after = .ok n) : n.comments = 0 := by
  rcases node_cases h with ⟨_, _, rfl⟩ | ⟨_, _, _, rfl⟩
  · simp only [Node.comments]
  · simp only [Node.comments]

namespace Rereads

variable {joined : Bool}

theorem comments {ns : List Node} (h : ∀ n ∈ ns, n.isComment = true ∧ n.Stands)
    (terminated : Bool) {after : Text} (hafter : IsLoose after) :
    Rereads false ns (Node.printAll terminated ns ++ after) := by
  induction ns with
  | nil => exact nil hafter
  | cons n ns ih =>
    obtain ⟨hcomment, hstands⟩ := h n List.mem_cons_self
    cases n with
    | comment c =>
      rw [Node.printAll, Node.print, List.append_assoc]
      exact (ih fun m hm => h m (List.mem_cons_of_mem _ hm)).comment hstands
    | _ => cases hcomment

/-- The first semicolon behind a statement ends it, whatever gap it stands in. -/
theorem semicolon {us : List Token} {d : Draft} {before gap after' t w : Text} {n : Node}
    {ns : List Node} (hs : Standing us d) (hbefore : IsLoose before) (hgap : IsGap gap)
    (hn : d.node before after' = .ok n) (ht : IsLoose t) (hmem : ';' ∈ t)
    (hns : ∀ k, IsLoose k → Rereads joined ns (k ++ w)) :
    Rereads joined (n :: ns) (before ++ Token.textOf us ++ gap ++ (t ++ w)) := by
  obtain ⟨g, k, rfl, hg, hk⟩ := ht.exists_semicolon hmem
  obtain ⟨m, hm, hbare⟩ := Draft.exists_node_after hn (gap ++ g)
  have h := (hns k hk).statement hs hbefore (hgap.append hg) hm hbare
  simp only [List.append_assoc, List.cons_append] at h ⊢
  exact h

/-- A statement takes in a comment behind it if no semicolon stands between them.  There is one
comment less among the nodes. -/
theorem joined_comment {us : List Token} {d : Draft} {before gap after' w : Text} {n : Node}
    {c : Comment} {ns : List Node} (hs : Standing us d) (hgap : IsGap gap)
    (hn : d.node before after' = .ok n) (hc : (Node.comment c).Stands) (hmem : ';' ∉ c.before)
    (h : ∀ {us' : List Token} {d' : Draft} {n' : Node}, Standing us' d' →
      d'.node before [] = .ok n' →
        ∃ joined, Rereads joined (n' :: ns) (before ++ Token.textOf us' ++ w)) :
    Rereads true (n :: .comment c :: ns) (before ++ Token.textOf us ++ gap ++
      (c.before ++ ((Token.comment c.text true).text ++ w))) := by
  obtain ⟨hloose, v, hbody⟩ := hc
  obtain ⟨d', hs', hnode⟩ := hs.append_comment (hgap.append (hloose.isGap hmem)) hbody
  obtain ⟨n', hn'⟩ := hnode _ _ _ hn
  obtain ⟨joined, hread⟩ := h hs' hn'
  have hfewer : Node.commentsIn (n' :: ns) < Node.commentsIn (n :: .comment c :: ns) := by
    rw [Node.commentsIn, Node.commentsIn, Node.commentsIn, Draft.comments_of_node hn,
      Draft.comments_of_node hn', Node.comments]
    omega
  have htext : before ++ Token.textOf (us ++ Token.ofGap (gap ++ c.before) ++
      [.comment c.text true]) ++ w =
      before ++ Token.textOf us ++ gap ++
        (c.before ++ ((Token.comment c.text true).text ++ w)) := by
    simp only [Token.textOf_append, Token.textOf_cons, Token.textOf_nil, Token.textOf_ofGap,
      List.append_assoc, List.nil_append]
  rw [← htext]
  exact hread.of_lt hfewer

/-- A statement without a semicolon of its own, and the comments behind it. -/
theorem statement_append {us : List Token} {d : Draft} {before gap after' : Text} {n : Node}
    {ns : List Node} (hs : Standing us d) (hbefore : IsLoose before) (hgap : IsGap gap)
    (hn : d.node before after' = .ok n) (hns : ∀ m ∈ ns, m.isComment = true ∧ m.Stands)
    {after : Text} (hafter : IsLoose after) :
    Rereads (n.takesComment false ns) (n :: ns)
      (before ++ Token.textOf us ++ gap ++ (Node.printAll false ns ++ after)) := by
  induction ns generalizing us d gap after' n with
  | nil =>
    by_cases hmem : ';' ∈ after
    · have h := semicolon (w := []) hs hbefore hgap hn hafter hmem fun k hk => by
        rw [List.append_nil]
        exact nil hk
      rw [List.append_nil] at h
      exact h
    · obtain ⟨m, hm, hbare⟩ := Draft.exists_node_after hn []
      have h := last hs hbefore (hgap.append (hafter.isGap hmem)) hm hbare
      rw [← List.append_assoc] at h
      exact h
  | cons m ns ih =>
    obtain ⟨hcomment, hstands⟩ := hns m List.mem_cons_self
    have hrest : ∀ m ∈ ns, m.isComment = true ∧ m.Stands := fun m hm =>
      hns m (List.mem_cons_of_mem _ hm)
    cases m with
    | comment c =>
      have hall : ns.all Node.isComment = true :=
        List.all_eq_true.2 fun m hm => (hrest m hm).1
      have htakes : n.takesComment false (.comment c :: ns) = !c.before.contains ';' := by
        rw [Node.takesComment, Node.isStatement_of_node hn, hall, Bool.not_false, Bool.true_and,
          Bool.true_and, Bool.true_and]
      have hprint : ∀ k, Comment.print { c with before := k } =
          k ++ (Token.comment c.text true).text := by
        intro k
        simp [Comment.print, Token.text]
      have hcomments : Node.printAll false (.comment c :: ns) ++ after =
          c.before ++ ((Token.comment c.text true).text ++ (Node.printAll false ns ++ after)) := by
        rw [Node.printAll, Node.print, hprint c.before, List.append_assoc, List.append_assoc]
      rw [htakes, hcomments]
      by_cases hmem : ';' ∈ c.before
      · rw [List.contains_iff_mem.2 hmem]
        refine semicolon hs hbefore hgap hn hstands.1 hmem fun k hk => ?_
        have h := (comments hrest false hafter).comment (hstands.withBefore hk)
        rw [hprint, List.append_assoc] at h
        exact h.congr (by simp only [Node.bareIn, Node.bare])
      · have hcontains : c.before.contains ';' = false := by
          rw [← Bool.not_eq_true, List.contains_iff_mem]
          exact hmem
        rw [hcontains]
        refine joined_comment hs hgap hn hstands hmem fun {_ _ n'} hs' hn' =>
          ⟨n'.takesComment false ns, ?_⟩
        have h := ih hs' isGap_nil hn' hrest
        rw [List.append_nil] at h
        exact h
    | _ => cases hcomment

end Rereads

/-! ## Lists of nodes -/

namespace Node

theorem every_of_mem {p : Node → Prop} {ns : List Node} (h : EveryIn p ns) {n : Node}
    (hn : n ∈ ns) : Every p n := by
  induction ns with
  | nil => cases hn
  | cons m ns ih =>
    rcases List.mem_cons.1 hn with rfl | hn
    · exact h.1
    · exact ih h.2 hn

theorem Every.self {p : Node → Prop} {n : Node} (h : Every p n) : p n := by
  cases n with
  | rule head nodes e => exact h.1
  | atBlock head nodes e => exact h.1
  | _ => exact h

end Node

theorem Standing.print_node {us : List Token} {d : Draft} {before after : Text} {n : Node}
    (hs : Standing us d) (hn : d.node before after = .ok n) (terminated : Bool) :
    n.print terminated = before ++ Token.textOf us ++ after ++ Node.terminator terminated := by
  have hread : ∀ t ∈ us, t.IsRead := fun t ht => (hs.parted [] halts_nil).isRead ht
  rw [hs.statement.print_node hread hn]
  simp only [List.append_assoc]

namespace Node

/-- Induction over a list by what stands first: a block, for whose nodes the property holds as
well, a comment or a statement. -/
@[elab_as_elim]
theorem list_induction {motive : List Node → Prop} (nil : motive [])
    (block : ∀ (head : BlockHead) (nodes : List Node) (ending : Ending) (ns : List Node),
      motive nodes → motive ns → motive (head.node nodes ending :: ns))
    (comment : ∀ (c : Comment) (ns : List Node), motive ns → motive (.comment c :: ns))
    (statement : ∀ (n : Node) (ns : List Node), n.isStatement = true → motive ns →
      motive (n :: ns)) (ns : List Node) : motive ns := by
  refine (Node.induction (P := fun n => ∀ nodes, n.children? = some nodes → motive nodes)
    (Q := motive) ?rule ?atBlock ?leaf nil ?cons).2 ns
  case rule | atBlock =>
    intro head nodes ending ih ns hns
    exact Option.some.inj hns ▸ ih
  case leaf =>
    intro n hn nodes hnodes
    rw [hn] at hnodes
    cases hnodes
  case cons =>
    intro n ns ihn ihns
    cases n with
    | rule head nodes ending => exact block (.rule head) nodes ending ns (ihn nodes rfl) ihns
    | atBlock head nodes ending => exact block (.atRule head) nodes ending ns (ihn nodes rfl) ihns
    | atStatement head ending => exact statement _ ns rfl ihns
    | declaration d => exact statement _ ns rfl ihns
    | comment c => exact comment c ns ihns

theorem takesComment_eq_false {terminated : Bool} {n : Node} {ns : List Node}
    (h : (terminated || ns.any (!·.isComment)) = true) : n.takesComment terminated ns = false := by
  unfold takesComment
  split
  · rename_i c ns
    cases terminated with
    | true => rfl
    | false =>
      have hall : ns.all isComment = false := by
        rw [← Bool.not_eq_true, List.all_eq_true]
        intro hall
        obtain ⟨m, hm, hcomment⟩ := List.any_eq_true.1 h
        rcases List.mem_cons.1 hm with rfl | hm
        · cases hcomment
        · rw [hall m hm] at hcomment
          cases hcomment
      rw [hall, Bool.and_false, Bool.false_and]
  · rfl

theorem takesComment_of_isStatement_eq_false {n : Node} (h : n.isStatement = false)
    (terminated : Bool) (ns : List Node) : n.takesComment terminated ns = false := by
  unfold takesComment
  split
  · rw [h, Bool.and_false, Bool.false_and, Bool.false_and]
  · rfl

theorem joinsIn_cons_node (terminated : Bool) (head : BlockHead) (nodes ns : List Node)
    (e : Ending) : joinsIn terminated (head.node nodes e :: ns) =
      (joinsIn e.terminated nodes || joinsIn terminated ns) := by
  have hjoins : (head.node nodes e).joins = joinsIn e.terminated nodes := by
    cases head <;> simp only [BlockHead.node, joins]
  rw [joinsIn, takesComment_of_isStatement_eq_false (isStatement_node head nodes e), hjoins,
    Bool.or_false]

theorem joinsIn_cons_comment (terminated : Bool) (c : Comment) (ns : List Node) :
    joinsIn terminated (comment c :: ns) = joinsIn terminated ns := by
  rw [joinsIn, takesComment_of_isStatement_eq_false rfl, joins, Bool.or_false, Bool.false_or]
  all_goals nofun

theorem joinsIn_of_all_isComment {terminated : Bool} {ns : List Node}
    (h : ∀ n ∈ ns, n.isComment = true) : joinsIn terminated ns = false := by
  induction ns with
  | nil => rw [joinsIn]
  | cons n ns ih =>
    have hn := h n List.mem_cons_self
    cases n with
    | comment c =>
      rw [joinsIn_cons_comment]
      exact ih fun m hm => h m (List.mem_cons_of_mem _ hm)
    | _ => cases hn

theorem joinsIn_cons_of_isStatement {n : Node} (h : n.isStatement = true) (terminated : Bool)
    (ns : List Node) : joinsIn terminated (n :: ns) =
      (n.takesComment terminated ns || joinsIn terminated ns) := by
  have hjoins : n.joins = false := by
    cases n with
    | rule head nodes e => cases h
    | atBlock head nodes e => cases h
    | _ => simp only [joins]
  rw [joinsIn, hjoins, Bool.false_or]

/-- A statement is read back in front of the nodes behind it.  It has its semicolon because of
the flag of its list or of a node behind it; without one there are only comments behind it. -/
theorem rereads_statement {n : Node} {ns : List Node} {terminated : Bool} {after : Text}
    (h : Rereads (joinsIn terminated ns) ns (printAll terminated ns ++ after))
    (hstatement : n.isStatement = true) (hn : n.Stands) (hns : EveryIn Stands ns)
    (hafter : IsLoose after) :
    Rereads (joinsIn terminated (n :: ns)) (n :: ns) (printAll terminated (n :: ns) ++ after) := by
  obtain ⟨us, d, before, gap, hs, hbefore, hgap, hnode⟩ :=
    (stands_iff_of_isStatement hstatement).1 hn
  rw [printAll, joinsIn_cons_of_isStatement hstatement, hs.print_node hnode]
  cases hlast : terminated || ns.any (!·.isComment) with
  | true =>
    have h := h.statement hs hbefore hgap hnode rfl
    rw [takesComment_eq_false hlast, Bool.false_or]
    simp only [terminator, List.append_assoc, List.cons_append, List.nil_append, if_true] at h ⊢
    exact h
  | false =>
    obtain ⟨rfl, hany⟩ := Bool.or_eq_false_iff.1 hlast
    have hcomments : ∀ m ∈ ns, m.isComment = true ∧ m.Stands := fun m hm =>
      ⟨by simpa using List.any_eq_false.1 hany m hm, (every_of_mem hns hm).self⟩
    have h := Rereads.statement_append hs hbefore hgap hnode hcomments hafter
    rw [joinsIn_of_all_isComment fun m hm => (hcomments m hm).1, Bool.or_false]
    simp only [terminator, List.append_assoc] at h ⊢
    exact h

/-- Nodes that stand are read back from what is written for them, unless a comment is taken
in. -/
theorem rereads_printAll {ns : List Node} (hstands : EveryIn Stands ns) (terminated : Bool)
    {after : Text} (hafter : IsLoose after) :
    Rereads (joinsIn terminated ns) ns (printAll terminated ns ++ after) := by
  induction ns using list_induction generalizing terminated after with
  | nil =>
    rw [joinsIn]
    exact .nil hafter
  | block head nodes e ns ihnodes ih =>
    obtain ⟨hn, hns⟩ := hstands
    obtain ⟨hnode, hnodes⟩ := every_node.1 hn
    obtain ⟨hhead, hloose⟩ := stands_node.1 hnode
    have hblock := (ih hns terminated hafter).block (ihnodes hnodes e.terminated hloose) hhead e
    rw [printAll, BlockHead.print_node, joinsIn_cons_node]
    simp only [List.append_assoc, List.cons_append, List.nil_append] at hblock ⊢
    exact hblock
  | comment c ns ih =>
    obtain ⟨hn, hns⟩ := hstands
    rw [printAll, print, joinsIn_cons_comment, List.append_assoc]
    exact (ih hns terminated hafter).comment hn.self
  | statement n ns hstatement ih =>
    obtain ⟨hn, hns⟩ := hstands
    exact rereads_statement (ih hns terminated hafter) hstatement hn.self hns hafter

end Node

namespace Sheet

/-- A stylesheet without its gaps and semicolons. -/
def bare (s : Sheet) : Sheet := ⟨Node.bareIn s.nodes, {}⟩

/-- Whether a statement of a stylesheet takes in a comment behind it. -/
def joins (s : Sheet) : Bool := Node.joinsIn s.ending.terminated s.nodes

/-- A stylesheet of nodes that stand is read back from its text.  It comes back as it is, up to
the gaps, if and only if no statement takes a comment in. -/
theorem exists_parse_print {s : Sheet} (hstands : Node.EveryIn Node.Stands s.nodes)
    (hafter : IsLoose s.ending.after) :
    ∃ s', parse s.print = .ok s' ∧ (s'.bare = s.bare ↔ s.joins = false) := by
  obtain ⟨ns', e, hyields, hreplaces⟩ :=
    rereads_iff.1 (Node.rereads_printAll hstands s.ending.terminated hafter) false false
  refine ⟨⟨ns', e⟩, hyields.parse, ?_⟩
  unfold joins
  cases hjoins : Node.joinsIn s.ending.terminated s.nodes with
  | false =>
    rw [hjoins] at hreplaces
    exact iff_of_true (congrArg (Sheet.mk · {}) hreplaces) rfl
  | true =>
    rw [hjoins] at hreplaces
    refine iff_of_false (fun h => ?_) (by decide)
    exact hreplaces.ne (Node.commentsIn_congr (congrArg nodes h))

end Sheet

end HostSheet
