import Mathlib
import HostSheet.Proofs.Pieces
import HostSheet.Proofs.Respacing
import HostSheet.Proofs.Unwrapping

set_option autoImplicit false

/-!
# Where `:host` stands

In a text that is spelled, the pieces of its nodes have the characters of its tokens
(`Spells.textOf_pieces`).  So where `:host` occurs as whole selectors only
(`Piece.exposed_of_spans`), it starts in no other part of a node, and what is found in the
text is found node by node.
-/

namespace HostSheet

open Text Syntax

/-! ## Where `:host` starts -/

theorem clear_of_forall {t w : Text}
    (h : ∀ i, i < t.length → ¬hostSelector <+: (t ++ w).drop i) : Clear t w := by
  induction t with
  | nil => trivial
  | cons c t ih =>
    refine ⟨h 0 (Nat.succ_pos _), ih fun i hi => ?_⟩
    exact h (i + 1) (Nat.succ_lt_succ hi)

namespace Piece

/-- In the text of the pieces `:host` starts nowhere but as a whole selector. -/
def Exposed : List Piece → Prop
  | [] => True
  | plain t :: ps => Clear t (textOf ps) ∧ Exposed ps
  | selector t :: ps => (t = hostSelector ∨ Clear t (textOf ps)) ∧ Exposed ps

theorem Exposed.right_of_append {ps qs : List Piece} (h : Exposed (ps ++ qs)) : Exposed qs := by
  induction ps with
  | nil => exact h
  | cons p ps ih => cases p <;> exact ih h.2

theorem Exposed.clear {t u v : Text} {ps : List Piece}
    (h : Exposed (plain (t ++ (u ++ v)) :: ps)) : Clear u (v ++ textOf ps) :=
  (clear_append_iff.1 (clear_append_iff.1 h.1).2).1

/-- A piece without a selector may be cut. -/
theorem Exposed.cut {t u : Text} {ps qs : List Piece} (h : Exposed (ps ++ plain (t ++ u) :: qs)) :
    Exposed (ps ++ plain t :: plain u :: qs) := by
  induction ps with
  | nil =>
    obtain ⟨hclear, hqs⟩ := h
    obtain ⟨ht, hu⟩ := clear_append_iff.1 hclear
    exact ⟨ht, hu, hqs⟩
  | cons p ps ih =>
    have htext : textOf (ps ++ plain t :: plain u :: qs) = textOf (ps ++ plain (t ++ u) :: qs) := by
      simp [text]
    rw [List.cons_append] at h ⊢
    cases p with
    | plain v => exact ⟨by rw [htext]; exact h.1, ih h.2⟩
    | selector v => exact ⟨by rw [htext]; exact h.1, ih h.2⟩

/-- Nodes without blocks have no selector. -/
theorem Exposed.clear_leaves {terminated : Bool} {ns : List Node} {t : Text} {ps : List Piece}
    (hns : ∀ n ∈ ns, n.children? = none)
    (h : Exposed (Node.piecesIn terminated ns ++ plain t :: ps)) :
    Clear (textOf (Node.piecesIn terminated ns ++ [plain t])) (textOf ps) := by
  induction ns with
  | nil => simpa [Node.piecesIn, text] using h.1
  | cons n ns ih =>
    have hrest := ih fun m hm => hns m (List.mem_cons_of_mem _ hm)
    rw [Node.piecesIn, Node.pieces_of_children?_eq_none (hns n List.mem_cons_self),
      List.append_assoc, List.singleton_append] at h ⊢
    rw [textOf_cons]
    refine clear_append_iff.2 ⟨?_, hrest h.2⟩
    have hfirst := h.1
    simpa [text] using hfirst

/-- If each place where `:host` starts is a whole selector, it starts nowhere else. -/
theorem exposed_of_spans {i : Nat} {ps : List Piece}
    (h : ∀ j, j < (textOf ps).length → hostSelector <+: (textOf ps).drop j →
      (i + j, i + j + hostSelector.length) ∈ spansFrom i ps) : Exposed ps := by
  have hfive : hostSelector.length = 5 := rfl
  induction ps generalizing i with
  | nil => trivial
  | cons p ps ih =>
    -- What starts behind the first piece.
    have hlater : ∀ j, j < (textOf ps).length → hostSelector <+: (textOf ps).drop j →
        (i + (p.text.length + j), i + (p.text.length + j) + hostSelector.length) ∈
          spansFrom i (p :: ps) := by
      intro j hj hprefix
      apply h
      · rw [textOf_cons, List.length_append]
        omega
      · rwa [textOf_cons, List.drop_append, List.drop_eq_nil_of_le (Nat.le_add_right _ _),
          Nat.add_sub_cancel_left, List.nil_append]
    -- What starts in it is not among the selectors behind it.
    have hfirst : ∀ j, j < p.text.length → hostSelector <+: (p.text ++ textOf ps).drop j →
        (i + j, i + j + hostSelector.length) ∈ spansFrom i (p :: ps) := by
      intro j hj hprefix
      apply h
      · rw [textOf_cons, List.length_append]
        omega
      · rwa [textOf_cons]
    cases p with
    | plain t =>
      constructor
      · refine clear_of_forall fun j hj hprefix => ?_
        have hmem : _ ∈ spansFrom (i + t.length) ps := hfirst j hj hprefix
        have hle := le_of_mem_spansFrom hmem
        dsimp only [text] at hle hj
        omega
      · apply ih (i := i + t.length)
        intro j hj hprefix
        rw [Nat.add_assoc]
        exact hlater j hj hprefix
    | selector t =>
      constructor
      · by_cases ht : t = hostSelector
        · exact .inl ht
        refine .inr (clear_of_forall fun j hj hprefix => ?_)
        rcases List.mem_cons.1 (hfirst j hj hprefix) with heq | hmem
        · obtain ⟨hj, hlen⟩ := Prod.mk.inj heq
          obtain rfl : j = 0 := by omega
          refine ht (List.IsPrefix.eq_of_length ?_ ?_).symm
          · exact List.prefix_of_prefix_length_le hprefix (List.prefix_append t _) (by omega)
          · omega
        · have hle := le_of_mem_spansFrom hmem
          dsimp only [text] at hle hj
          omega
      · apply ih (i := i + t.length)
        intro j hj hprefix
        rcases List.mem_cons.1 (hlater j hj hprefix) with heq | hmem
        · obtain ⟨hj, hlen⟩ := Prod.mk.inj heq
          dsimp only [text] at hj hlen
          omega
        · rw [Nat.add_assoc]
          exact hmem

end Piece

/-! ## What is spelled, piece by piece -/

/-- What is exposed of a comment: its characters, and what follows. -/
theorem Comment.exposed {c : Comment} {ps : List Piece} {terminated : Bool}
    (h : Piece.Exposed ((Node.comment c).pieces terminated ++ ps)) :
    Clear (Token.comment c.text true).text (Piece.textOf ps) ∧ Piece.Exposed ps := by
  have hprint : (Node.comment c).print terminated =
      c.before ++ ((Token.comment c.text true).text ++ []) := by
    simp [Node.print, Comment.print, Token.text]
  rw [Node.pieces_of_children?_eq_none rfl, hprint, List.singleton_append] at h
  exact ⟨h.clear, h.2⟩

namespace Draft

theorem ColonInPlace.feed {d d' : Draft} {us : List Token} (hc : d.ColonInPlace)
    (h : d.feed us = some d') : d'.ColonInPlace := by
  induction us generalizing d with
  | nil => rwa [← Option.some.inj h]
  | cons u us ih =>
    rw [feed_cons] at h
    obtain ⟨d₁, htake, hrest⟩ := Option.bind_eq_some_iff.1 h
    exact ih (hc.takes (takes_of_take? htake)) hrest

end Draft

namespace Statement

variable {us : List Token} {d : Draft} {before : Text}

theorem text_withGap (hs : Statement us d) (hread : ∀ t ∈ us, t.IsRead) (gap : Text) :
    (d.withGap gap).text = Token.textOf us ++ gap := by
  rw [← hs.text hread, Draft.text, Draft.text, hs.gap, List.append_nil]
  rfl

/-- A statement without a block has the characters of its tokens. -/
theorem print_node {after : Text} {n : Node} (hs : Statement us d) (hread : ∀ t ∈ us, t.IsRead)
    (h : d.node before after = .ok n) (terminated : Bool) :
    n.print terminated =
      before ++ (Token.textOf us ++ (after ++ Node.terminator terminated)) := by
  have hcolon : d.ColonInPlace :=
    (show Draft.ColonInPlace { offset := 0 } from nofun).feed hs.feed
  have htext : { d with gap := after }.text = Token.textOf us ++ after :=
    hs.text_withGap hread after
  rw [Draft.print_node hcolon h terminated, htext, List.append_assoc, List.append_assoc]

/-- A statement without a block is one piece. -/
theorem pieces_node {after : Text} {n : Node} (hs : Statement us d)
    (hread : ∀ t ∈ us, t.IsRead) (h : d.node before after = .ok n) (terminated : Bool) :
    n.pieces terminated =
      [.plain (before ++ (Token.textOf us ++ (after ++ Node.terminator terminated)))] := by
  rw [Node.pieces_of_children?_eq_none (Draft.children?_of_node h), hs.print_node hread h]

/-- What is exposed of a statement without a block: its characters, and what follows. -/
theorem exposed_node {after : Text} {n : Node} {ps : List Piece} {terminated : Bool}
    (hs : Statement us d) (hread : ∀ t ∈ us, t.IsRead) (hn : d.node before after = .ok n)
    (h : Piece.Exposed (n.pieces terminated ++ ps)) :
    Clear (Token.textOf us) (after ++ (Node.terminator terminated ++ Piece.textOf ps)) ∧
      Piece.Exposed ps := by
  rw [hs.pieces_node hread hn, List.singleton_append] at h
  have hclear := h.clear
  rw [List.append_assoc] at hclear
  exact ⟨hclear, h.2⟩

/-- The head of a block is a selector or one piece. -/
theorem blockHead_cases {gap : Text} {head : BlockHead} (hs : Statement us d)
    (hread : ∀ t ∈ us, t.IsRead) (h : (d.withGap gap).blockHead? before = some head) :
    head = .rule ⟨before, Token.textOf us, gap⟩ ∨
      ∃ at₀, head = .atRule at₀ ∧ at₀.before = before ∧
        at₀.print = before ++ (Token.textOf us ++ gap) := by
  have htext := hs.text_withGap hread gap
  have hprint := Draft.print_blockHead h
  rw [htext] at hprint
  rcases Draft.blockHead_cases h with ⟨name, _, rfl⟩ | ⟨hname, rfl⟩
  · exact .inr ⟨_, rfl, rfl, hprint⟩
  · have hcontent : (d.withGap gap).content = Token.textOf us := by
      rw [Draft.text_of_name_eq_none hname] at htext
      exact List.append_cancel_right htext
    rw [hcontent]
    exact .inl rfl

/-- What is exposed of a block: its nodes and what follows, and the selector or the at-rule
in front, if it is no host rule. -/
theorem exposed_block {gap : Text} {head : BlockHead} {nodes : List Node} {ending : Ending}
    {ps : List Piece} {terminated : Bool} (hs : Statement us d) (hread : ∀ t ∈ us, t.IsRead)
    (hh : (d.withGap gap).blockHead? before = some head)
    (h : Piece.Exposed ((head.node nodes ending).pieces terminated ++ ps)) :
    Piece.Exposed (Node.piecesIn ending.terminated nodes ++
        .plain ending.after :: .plain ['\x7d'] :: ps) ∧
      ((head.node nodes ending).isHost = true → Token.textOf us = hostSelector) ∧
      ((head.node nodes ending).isHost = false → Clear (Token.textOf us) (gap ++ '\x7b' ::
        Piece.textOf (Node.piecesIn ending.terminated nodes ++
          .plain ending.after :: .plain ['\x7d'] :: ps))) := by
  rcases hs.blockHead_cases hread hh with rfl | ⟨at₀, rfl, _, hprint⟩
  · rw [BlockHead.node, Node.pieces] at h
    simp only [List.append_assoc, List.cons_append, List.nil_append] at h
    obtain ⟨_, hselector, hgap, hinner⟩ := h
    have hinside := hinner.cut
    refine ⟨hinside, fun hhost => ?_, fun hhost => ?_⟩
    · -- A selector with `:host` in it is one of those that are `:host`.
      refine hselector.resolve_right fun hclear => ?_
      obtain ⟨u, v, htext, _⟩ :=
        Node.exists_append_of_isHostOnly (t := Token.textOf us) hhost
      rw [htext, clear_append_iff, clear_append_iff] at hclear
      exact hclear.2.1.1 (List.prefix_append hostSelector _)
    · have hne : Token.textOf us ≠ hostSelector := by
        intro heq
        change Selector.isHostOnly (Token.textOf us) = false at hhost
        rw [heq] at hhost
        cases hhost
      have hclear := hselector.resolve_left hne
      simpa [Piece.text] using hclear
  · rw [BlockHead.node, Node.pieces, hprint] at h
    simp only [List.append_assoc, List.cons_append, List.nil_append] at h
    have hinside := h.2.cut
    refine ⟨hinside, fun hhost => (by cases hhost), fun _ => ?_⟩
    have hclear := h.clear
    simpa [Piece.text] using hclear

end Statement

namespace Spells

/-- In front of a list behind a semicolon the semicolon is printed. -/
theorem separated {inBlock terminated : Bool} {ts : List Token} {ns : List Node} {e : Ending}
    (h : Spells inBlock terminated ts ns e) (hterminated : terminated = true) :
    (e.terminated || ns.any (!·.isComment)) = true := by
  have hfirst : ∀ {n : Node} (ns : List Node), n.isComment = false →
      (e.terminated || (n :: ns).any (!·.isComment)) = true := by
    intro n ns hn
    rw [List.any_cons, hn]
    exact Bool.or_true _
  induction h with
  | nil hgap => rw [hterminated]; rfl
  | last hbefore hs hn hgap hb => exact hfirst _ (Draft.isComment_of_node hn)
  | comment hbefore h ih => exact ih hterminated hfirst
  | statement hbefore hs hb hgap hn h ih => exact hfirst _ (Draft.isComment_of_node hn)
  | block hbefore hs hb hgap hh hinner h => exact hfirst _ (BlockHead.isComment_node _ _ _)

/-- The pieces of nodes have the characters that spell them. -/
theorem textOf_pieces {inBlock terminated : Bool} {ts : List Token} {ns : List Node} {e : Ending}
    (h : Spells inBlock terminated ts ns e) (hread : ∀ t ∈ ts, t.IsRead) :
    Piece.textOf (Node.piecesIn e.terminated ns ++ [.plain e.after]) = Token.textOf ts := by
  have hleft : ∀ {us vs : List Token}, (∀ t ∈ us ++ vs, t.IsRead) → ∀ t ∈ us, t.IsRead :=
    fun h t ht => h t (List.mem_append_left _ ht)
  have hright : ∀ {us vs : List Token}, (∀ t ∈ us ++ vs, t.IsRead) → ∀ t ∈ vs, t.IsRead :=
    fun h t ht => h t (List.mem_append_right _ ht)
  induction h with
  | nil hgap => simp [Node.piecesIn, Piece.text]
  | @last inBlock terminated before gap us d n hbefore hs hn hgap hb =>
    have hus := hright (hleft hread)
    rw [Node.piecesIn, hs.pieces_node hus hn]
    simp [Node.piecesIn, Piece.text, Node.terminator]
  | @comment inBlock terminated before body ts ns e hbefore h ih =>
    have hts : ∀ t ∈ ts, t.IsRead := fun t ht => hright hread t (List.mem_cons_of_mem _ ht)
    rw [Node.piecesIn, Node.pieces_of_children?_eq_none rfl, List.append_assoc,
      Piece.textOf_append, ih hts]
    simp [Piece.text, Node.print, Comment.print, Token.text]
  | @statement inBlock terminated before gap us ts d n ns e hbefore hs hb hgap hn h ih =>
    have hus := hright (hleft (hleft hread))
    have hts : ∀ t ∈ ts, t.IsRead := fun t ht => hright hread t (List.mem_cons_of_mem _ ht)
    rw [Node.piecesIn, h.separated rfl, hs.pieces_node hus hn, List.append_assoc,
      Piece.textOf_append, ih hts]
    simp [Piece.text, Node.terminator, Token.text]
  | @block inBlock terminated before gap us inner ts d head nodes ns ending e hbefore hs hb hgap
      hh hinner h ihinner ih =>
    have hus := hright (hleft (hleft hread))
    have hblock : ∀ t ∈ inner ++ .closer .curly :: ts, t.IsRead :=
      fun t ht => hright hread t (List.mem_cons_of_mem _ ht)
    have hts : ∀ t ∈ ts, t.IsRead := fun t ht => hright hblock t (List.mem_cons_of_mem _ ht)
    have hinside := ihinner (hleft hblock)
    rw [Piece.textOf_append] at hinside
    rw [Node.piecesIn, List.append_assoc, Piece.textOf_append, ih hts]
    rcases hs.blockHead_cases hus hh with rfl | ⟨at₀, rfl, _, hprint⟩
    · simp [BlockHead.node, Node.pieces, Piece.text, Token.text, Bracket.opening,
        Bracket.closing, ← hinside]
    · simp [BlockHead.node, Node.pieces, Piece.text, Token.text, Bracket.opening,
        Bracket.closing, ← hinside, hprint]

theorem textOf_pieces_append {inBlock terminated : Bool} {ts zs : List Token} {ns : List Node}
    {e : Ending} {rest : List Piece} (h : Spells inBlock terminated ts ns e)
    (hread : ∀ t ∈ ts, t.IsRead) (hrest : Piece.textOf rest = Token.textOf zs) :
    Piece.textOf (Node.piecesIn e.terminated ns ++ .plain e.after :: rest) =
      Token.textOf (ts ++ zs) := by
  rw [Token.textOf_append, ← h.textOf_pieces hread, ← hrest, ← Piece.textOf_append,
    List.append_assoc]
  rfl

end Spells

end HostSheet
