import Mathlib
import HostSheet.Proofs.Exposure
import HostSheet.Proofs.Placing
import HostSheet.Proofs.Splicing

set_option autoImplicit false

/-!
# Nodes that stand anywhere

A node stands if its characters are read as the node wherever they are put: in front of a
blank, a semicolon, a brace, a comment or the end of the text (`Node.Stands`).  A node that was
read stands if its last token cannot take more characters in, and if it leaves no bracket open
(`Firm`, `Spells.everyIn_stands`).
-/

namespace HostSheet

open Syntax

/-! ## What may follow a statement -/

namespace Syntax

/-- The texts that end a closed token in front of them. -/
def Halts (w : Text) : Prop := ∀ e, w.head? = some e → isStop e = true

theorem halts_nil : Halts [] := nofun

theorem halts_cons {e : Char} (h : isStop e = true) (v : Text) : Halts (e :: v) :=
  fun _ hc => Option.some.inj hc ▸ h

theorem Halts.gap_append {g w : Text} (hw : Halts w) (hg : IsGap g) : Halts (g ++ w) := by
  cases g with
  | nil => exact hw
  | cons c g => exact halts_cons (isStop_of_isSeam (isSeam_of_isBlank (hg c List.mem_cons_self))) _

end Syntax

/-- The tokens are a statement, whatever stands behind them. -/
structure Standing (us : List Token) (d : Draft) : Prop where
  statement : Statement us d
  brackets : d.brackets = []
  parted : ∀ w, Halts w → Token.Parted us w

namespace Standing

variable {us : List Token} {d : Draft}

/-- A statement and the gap behind it, in front of any text that ends it. -/
theorem ofText_append (h : Standing us d) {before gap w : Text} (hbefore : IsLoose before)
    (hgap : IsGap gap) (hw : Halts w) :
    Token.ofText (before ++ Token.textOf us ++ gap ++ w) =
      Token.ofGap before ++ us ++ Token.ofGap gap ++ Token.ofText w := by
  rw [List.append_assoc, List.append_assoc, Token.ofText_gap_append hbefore,
    h.parted _ (hw.gap_append hgap), Token.ofText_gap_append hgap.isLoose, List.append_assoc,
    List.append_assoc]

/-- A comment goes into the statement in front of it. -/
theorem append_comment (h : Standing us d) {g body w : Text} (hg : IsGap g)
    (hbody : Token.Parted [.comment body true] w) :
    ∃ d', Standing (us ++ Token.ofGap g ++ [.comment body true]) d' ∧
      ∀ before after n, d.node before after = .ok n → ∃ n', d'.node before [] = .ok n' := by
  let d₁ := d.withGap (d.gap ++ g)
  have hfeed : Draft.feed { offset := 0 } (us ++ Token.ofGap g ++ [.comment body true]) =
      some (d₁.add (.comment body true)) := by
    have htake : d₁.take? (.comment body true) = some (d₁.add (.comment body true)) := by
      have hb : d₁.brackets = [] := h.brackets
      unfold Draft.take?
      rw [if_neg (not_not_intro hb)]
      exact congrArg some (by rw [Draft.add, hb]; rfl)
    rw [Draft.feed_append, Draft.feed_append, h.statement.feed, Option.bind_some,
      Draft.feed_ofGap h.brackets hg, Option.bind_some, Draft.feed_cons, htake]
    rfl
  obtain ⟨t, ts, rfl, ht⟩ := h.statement.starts
  refine ⟨d₁.add (.comment body true), ⟨⟨⟨t, _, rfl, ht⟩, hfeed, rfl⟩, h.brackets, ?_⟩, ?_⟩
  · intro v _
    have hcomment : Token.Parted [.comment body true] v := by
      rw [Token.Parted, Token.textOf_cons, Token.textOf_nil, List.append_nil]
      exact Token.ofText_comment hbody v
    have hslash : Halts (Token.textOf [.comment body true] ++ v) := halts_cons rfl _
    refine Token.parted_append_iff.2 ⟨Token.parted_append_iff.2 ⟨?_, ?_⟩, hcomment⟩
    · rw [Token.textOf_ofGap]
      exact h.parted _ (hslash.gap_append hg)
    · exact Token.parted_ofGap hg.isLoose _
  · intro before after n hn
    rcases Draft.node_cases hn with ⟨name, hname, _⟩ | ⟨k, hname, hk, _⟩
    · have hname' : (d₁.add (.comment body true)).name = some name := hname
      exact ⟨_, by rw [Draft.node, hname']⟩
    · have hname' : (d₁.add (.comment body true)).name = none := hname
      have hk' : (d₁.add (.comment body true)).colon = some k := hk
      exact ⟨_, by rw [Draft.node, hname', hk']⟩

end Standing

/-! ## Nodes that stand -/

theorem BlockHead.Stands.withBefore {head : BlockHead} (h : head.Stands) {gap : Text}
    (hgap : IsLoose gap) : (head.withBefore gap).Stands := by
  obtain ⟨_, ⟨before, us, d, between, _, hs, hb, hbetween, hh, rfl⟩, hparted⟩ := h
  refine ⟨_, ⟨gap, us, d, between, hgap, hs, hb, hbetween, Draft.blockHead?_withBefore hh gap, rfl⟩,
    fun v => ?_⟩
  have hv := hparted v
  rw [List.append_assoc] at hv ⊢
  have hrest := (Token.parted_append_iff.1 hv).2
  exact Token.parted_append_iff.2 ⟨Token.parted_ofGap hgap _, hrest⟩

namespace Node

/-- Whether a node is a statement without a block. -/
def isStatement : Node → Bool
  | atStatement _ _ => true
  | declaration _ => true
  | _ => false

/-- A node is read back wherever its characters are put, nodes inside it apart. -/
def Stands : Node → Prop
  | rule head _ ending => (BlockHead.rule head).Stands ∧ IsLoose ending.after
  | atBlock head _ ending => (BlockHead.atRule head).Stands ∧ IsLoose ending.after
  | comment c => IsLoose c.before ∧ ∃ w, Token.Parted [.comment c.text true] w
  | n => ∃ us d before after, Standing us d ∧ IsLoose before ∧ IsGap after ∧
      d.node before after = .ok n

theorem isStatement_of_node {d : Draft} {before after : Text} {n : Node}
    (h : d.node before after = .ok n) : n.isStatement = true := by
  rcases Draft.node_cases h with ⟨_, _, rfl⟩ | ⟨_, _, _, rfl⟩
  · rfl
  · rfl

theorem isStatement_node (head : BlockHead) (ns : List Node) (e : Ending) :
    (head.node ns e).isStatement = false := by
  cases head <;> rfl

theorem stands_iff_of_isStatement {n : Node} (h : n.isStatement = true) :
    n.Stands ↔ ∃ us d before after, Standing us d ∧ IsLoose before ∧ IsGap after ∧
      d.node before after = .ok n := by
  cases n with
  | atStatement head ending => exact Iff.rfl
  | declaration d => exact Iff.rfl
  | _ => cases h

theorem stands_node {head : BlockHead} {ns : List Node} {e : Ending} :
    (head.node ns e).Stands ↔ head.Stands ∧ IsLoose e.after := by
  cases head <;> exact Iff.rfl

/-- A node stands behind any gap if it stands behind one. -/
theorem Stands.withBefore {n : Node} (h : n.Stands) {gap : Text} (hgap : IsLoose gap) :
    (n.withBefore gap).Stands := by
  have hstatement : ∀ {n : Node}, n.isStatement = true → n.Stands →
      (n.withBefore gap).isStatement = true → (n.withBefore gap).Stands := by
    intro n hn h hn'
    obtain ⟨us, d, before, after, hs, _, hafter, hnode⟩ := (stands_iff_of_isStatement hn).1 h
    exact (stands_iff_of_isStatement hn').2
      ⟨us, d, gap, after, hs, hgap, hafter, Draft.node_withBefore hnode gap⟩
  cases n with
  | rule head nodes ending => exact ⟨h.1.withBefore hgap, h.2⟩
  | atBlock head nodes ending => exact ⟨h.1.withBefore hgap, h.2⟩
  | comment c => exact ⟨hgap, h.2⟩
  | atStatement head ending => exact hstatement rfl h rfl
  | declaration d => exact hstatement rfl h rfl

end Node

/-! ## Nodes that were read -/

/-- The brackets that are open behind the tokens, innermost first. -/
def openBrackets (ts : List Token) : List Bracket := ts.foldl Draft.bracketsAfter []

/-- A text that leaves no bracket open, and whose tokens stay the same whatever ends them.  No
string, address or escape at its end goes on with what follows. -/
def Firm (x : Text) : Prop :=
  openBrackets (Token.ofText x) = [] ∧
    ∀ e, isStop e = true → Token.ofText (x ++ [e]) = Token.ofText x ++ Token.ofText [e]

theorem firm_iff {x : Text} :
    Firm x ↔ openBrackets (Token.ofText x) = [] ∧
      ([' ', '\t', '\n', '\x0C', '\r', ';', '\x7b', '\x7d', '/'].all fun e =>
        Token.ofText (x ++ [e]) == Token.ofText x ++ Token.ofText [e]) = true := by
  have hmem : ∀ e, isStop e = true ↔
      e ∈ [' ', '\t', '\n', '\x0C', '\r', ';', '\x7b', '\x7d', '/'] := by
    intro e
    simp [isStop, isSeam, isBlank, or_assoc]
  unfold Firm
  simp only [hmem, List.all_eq_true, beq_iff_eq]

instance (x : Text) : Decidable (Firm x) := decidable_of_iff _ firm_iff.symm

/-- A firm text falls into the same tokens in front of whatever ends it. -/
theorem Firm.parted {x w : Text} (h : Firm x) (hw : Halts w) :
    Token.Parted (Token.ofText x) w := by
  cases w with
  | nil => exact Token.parted_ofText x
  | cons e v =>
    have hstop := hw e rfl
    have he : Token.Parted (Token.ofText x) [e] := by
      rw [Token.Parted, Token.textOf_ofText, h.2 e hstop]
    exact he.replace_stop hstop (Token.shut_of_foldl h.1) v

/-- The characters of a statement without a block, without the gaps around it. -/
def Node.core? : Node → Option Text
  | atStatement head _ => some ('@' :: head.name ++ head.afterName ++ head.params)
  | declaration d => some d.core
  | _ => none

/-- A node that is firm, if it is a statement without a block. -/
def Node.IsFirm (n : Node) : Prop := ∀ x, n.core? = some x → Firm x

namespace Statement

variable {us : List Token} {d : Draft} {before after : Text} {n : Node}

theorem core?_node (hs : Statement us d) (hread : ∀ t ∈ us, t.IsRead)
    (hn : d.node before after = .ok n) : n.core? = some (Token.textOf us) := by
  have hprint := hs.print_node hread hn false
  rw [← List.append_assoc (Token.textOf us), ← List.append_assoc before] at hprint
  have hcancel : ∀ {x : Text}, before ++ x ++ after = before ++ (Token.textOf us ++ after) →
      some x = some (Token.textOf us) := by
    intro x h
    rw [List.append_assoc] at h
    exact congrArg some (List.append_cancel_right (List.append_cancel_left h))
  rcases Draft.node_cases hn with ⟨name, _, rfl⟩ | ⟨k, _, _, rfl⟩
  · refine hcancel ?_
    have hhead := List.append_cancel_right hprint
    rw [AtHead.print] at hhead
    rw [← hhead]
    simp only [Draft.atHead, List.append_assoc, List.cons_append]
  · refine hcancel ?_
    have hdecl := List.append_cancel_right hprint
    rw [Declaration.print] at hdecl
    rw [← hdecl]
    simp only [Declaration.core, Draft.declaration, List.append_assoc]

/-- A firm statement that was read stands. -/
theorem standing (hs : Statement us d) {w : Text} (hparted : Token.Parted us w)
    (hw : ∀ c, w.head? = some c → isSeam c = true) (hb : d.brackets = [] ∨ w = [])
    (hfirm : Firm (Token.textOf us)) : Standing us d := by
  have hself : us = Token.ofText (Token.textOf us) := by
    cases w with
    | nil => exact hparted.ofText_textOf.symm
    | cons c w =>
      have hc := hw c rfl
      have hshut := hs.shut (hb.resolve_right (List.cons_ne_nil _ _))
      have h := hparted.replace hc hshut []
      rw [Token.Parted, hfirm.2 c (isStop_of_isSeam hc)] at h
      exact (List.append_cancel_right h).symm
  have hclosed : d.brackets = [] := by
    have hopen := hfirm.1
    rw [← hself] at hopen
    exact (Draft.brackets_of_feed hs.feed).trans hopen
  refine ⟨hs, hclosed, fun v hv => ?_⟩
  rw [hself]
  exact hfirm.parted hv

/-- The node of a firm statement that was read stands. -/
theorem every_stands (hs : Statement us d) {gap w : Text} (hparted : Token.Parted us (gap ++ w))
    (hgap : IsGap gap) (hw : ∀ c, w.head? = some c → isSeam c = true)
    (hb : d.brackets = [] ∨ gap ++ w = []) (hbefore : IsLoose before) (hafter : IsGap after)
    (hn : d.node before after = .ok n)
    (hfirm : Node.Every Node.IsFirm n) :
    Node.Every Node.Stands n := by
  have hleaf := Draft.children?_of_node hn
  rw [Node.every_of_children?_eq_none hleaf] at hfirm ⊢
  have hend : ∀ c, (gap ++ w).head? = some c → isSeam c = true := by
    intro c hc
    cases gap with
    | nil => exact hw c hc
    | cons b gap =>
      obtain rfl := Option.some.inj hc
      exact isSeam_of_isBlank (hgap b List.mem_cons_self)
  have hstanding := hs.standing hparted hend hb
    (hfirm _ (hs.core?_node (fun t ht => hparted.isRead ht) hn))
  exact (Node.stands_iff_of_isStatement (Node.isStatement_of_node hn)).2
    ⟨us, d, before, after, hstanding, hbefore, hafter, hn⟩

end Statement

/-- The gap at the end of a list of nodes is loose. -/
theorem Spells.isLoose_after {inBlock terminated : Bool} {ts : List Token} {ns : List Node}
    {e : Ending} (h : Spells inBlock terminated ts ns e) : IsLoose e.after := by
  induction h with
  | nil hgap => exact hgap
  | last hbefore hs hn hgap hb => exact hgap.isLoose
  | comment hbefore h ih => exact ih
  | statement hbefore hs hb hgap hn h ih => exact ih
  | block hbefore hs hb hgap hh hinner h ihinner ih => exact ih

/-- Nodes that were read stand, if their statements are firm. -/
theorem Spells.everyIn_stands {inBlock terminated : Bool} {ts : List Token} {ns : List Node}
    {e : Ending} (h : Spells inBlock terminated ts ns e)
    (hfirm : Node.EveryIn Node.IsFirm ns) {w : Text}
    (hparted : Token.Parted ts w)
    (hw : inBlock = false ∧ w = [] ∨ inBlock = true ∧ ∃ v, w = '\x7d' :: v) :
    Node.EveryIn Node.Stands ns := by
  induction h generalizing w with
  | nil => trivial
  | @last inBlock _ before gap us d n hbefore hs hn hgap hb =>
    rw [Token.parted_append_iff, Token.parted_append_iff, Token.textOf_ofGap] at hparted
    have hend : ∀ c, w.head? = some c → isSeam c = true := by
      intro c hc
      rcases hw with ⟨_, rfl⟩ | ⟨_, v, rfl⟩
      · cases hc
      · rw [← Option.some.inj hc]
        rfl
    have hclosed : d.brackets = [] ∨ gap ++ w = [] := by
      rcases hb with hb | ⟨hin, rfl⟩
      · exact .inl hb
      · rcases hw with ⟨_, rfl⟩ | ⟨hin', _⟩
        · exact .inr rfl
        · rw [hin] at hin'
          cases hin'
    exact ⟨hs.every_stands hparted.1.2 hgap hend hclosed hbefore isGap_nil hn hfirm.1, trivial⟩
  | @comment _ _ before body ts ns e hbefore h ih =>
    rw [Token.parted_append_iff, Token.parted_cons_iff] at hparted
    obtain ⟨_, hcomment, hrest⟩ := hparted
    refine ⟨⟨hbefore, Token.textOf ts ++ w, ?_⟩, ih hfirm.2 hrest hw⟩
    exact Token.parted_cons_iff.2 ⟨hcomment, Token.parted_nil _⟩
  | @statement _ _ before gap us ts d n ns e hbefore hs hb hgap hn h ih =>
    obtain ⟨hus, _⟩ := hparted.between
    refine ⟨hs.every_stands hus hgap ?_ (.inl hb) hbefore hgap hn hfirm.1,
      ih hfirm.2 hparted.tail hw⟩
    intro c hc
    rw [← Option.some.inj hc]
    rfl
  | @block _ _ before gap us inner ts d head nodes ns ending e hbefore hs hb hgap hh hinner h
      ihinner ih =>
    have hhead : SpellsHead (Token.ofGap before ++ us ++ Token.ofGap gap) head :=
      ⟨before, us, d, gap, hbefore, hs, hb, hgap, hh, rfl⟩
    obtain ⟨hfront, _⟩ := Token.parted_append_iff.1 hparted
    obtain ⟨hinside, _⟩ := Token.parted_append_iff.1 hparted.tail
    rw [Node.EveryIn, Node.every_node] at hfirm
    refine ⟨Node.every_node.2 ⟨Node.stands_node.2 ⟨⟨_, hhead, fun v => ?_⟩, hinner.isLoose_after⟩,
      ihinner hfirm.1.2 hinside (.inr ⟨rfl, _, rfl⟩)⟩, ih hfirm.2 hparted.tail.tail hw⟩
    exact Token.Parted.replace rfl hhead.shut hfront v

end HostSheet
