import Mathlib
import HostSheet.Proofs.Hoisting
import HostSheet.Proofs.Respacing

set_option autoImplicit false

/-!
# The outline of a stylesheet

The outline of a stylesheet is the row of its selectors and declarations in depth-first
order.  A reader has an outline too, of what it has read so far, and no token takes
anything off it again.  So a text can be followed from item to item: tokens that are read
as they should be lead to a reader with more items and less to read (`Reader.Reads`), and
one item that comes out wrong is never made good (`Reader.Misreads`).
-/

namespace HostSheet

open Syntax

/-- A selector or a declaration, without its gaps. -/
inductive Item where
  | selector (text : Text)
  | declaration (prop value : Text)
  deriving DecidableEq, Repr

namespace Label

/-- The item of a node with this label. -/
def item? : Label → Option Item
  | rule selector _ _ => some (.selector selector)
  | declaration prop _ value _ => some (.declaration prop value)
  | _ => none

/-- The item that is left of a node with this label after rewriting. -/
def left? (o : Options) (l : Label) : Option Item :=
  if l.isHost then none else (l.rewrite o).item?

end Label

namespace Node

/-- The items of nodes at every depth, in depth-first order. -/
def sift (f : Label → Option Item) (ns : List Node) : List Item :=
  (entriesIn [] ns).filterMap fun e => f e.label

variable {f : Label → Option Item}

@[simp] theorem sift_nil : sift f [] = [] := rfl

theorem sift_append (ms ns : List Node) : sift f (ms ++ ns) = sift f ms ++ sift f ns := by
  rw [sift, entriesIn_append, List.filterMap_append]
  rfl

theorem sift_cons (n : Node) (ns : List Node) : sift f (n :: ns) = sift f [n] ++ sift f ns :=
  sift_append [n] ns

/-- Which items there are does not depend on what is around the nodes. -/
theorem filterMap_entriesIn (above : List Label) (ns : List Node) :
    ((entriesIn above ns).filterMap fun e => f e.label) = sift f ns := by
  have key : (∀ n : Node, ∀ above above' : List Label,
        ((n.entries above).filterMap fun e => f e.label) =
          (n.entries above').filterMap fun e => f e.label) ∧
      ∀ ns : List Node, ∀ above above' : List Label,
        ((entriesIn above ns).filterMap fun e => f e.label) =
          (entriesIn above' ns).filterMap fun e => f e.label := by
    refine induction ?rule ?atBlock ?leaf ?nil ?cons
    case rule =>
      intro head nodes ending ih above above'
      rw [entries_rule, entries_rule, List.filterMap_cons, List.filterMap_cons, ih]
    case atBlock =>
      intro head nodes ending ih above above'
      rw [entries_atBlock, entries_atBlock, List.filterMap_cons, List.filterMap_cons, ih]
    case leaf =>
      intro n hn above above'
      rw [entries_of_children?_eq_none hn, entries_of_children?_eq_none hn,
        List.filterMap_cons, List.filterMap_cons]
    case nil =>
      intro above above'
      rfl
    case cons =>
      intro n ns hn hns above above'
      rw [entriesIn, entriesIn, List.filterMap_append, List.filterMap_append, hn above above',
        hns above above']
  exact key.2 ns above []

/-- The items of a node: its own, and those of the nodes inside it. -/
theorem sift_singleton (n : Node) :
    sift f [n] = (f n.label).toList ++ sift f (n.children?.getD []) := by
  have hcons : ∀ (above : List Label) (l : Label) (es : List Entry),
      ((⟨above, l⟩ :: es).filterMap fun e => f e.label) =
        (f l).toList ++ es.filterMap fun e => f e.label := by
    intro above l es
    rw [List.filterMap_cons]
    cases f l <;> rfl
  rw [sift, entriesIn, entriesIn, List.append_nil]
  cases n with
  | rule head nodes ending =>
    rw [entries_rule, hcons, filterMap_entriesIn]
    rfl
  | atBlock head nodes ending =>
    rw [entries_atBlock, hcons, filterMap_entriesIn]
    rfl
  | atStatement head ending =>
    rw [entries_of_children?_eq_none rfl, hcons]
    rfl
  | declaration d =>
    rw [entries_of_children?_eq_none rfl, hcons]
    rfl
  | comment c =>
    rw [entries_of_children?_eq_none rfl, hcons]
    rfl

end Node

namespace Sheet

/-- The selectors and declarations of a stylesheet, in depth-first order. -/
def outline (s : Sheet) : List Item := Node.sift Label.item? s.nodes

/-- What rewriting as a tree leaves of the outline. -/
theorem outline_transform (o : Options) (s : Sheet) :
    (s.transform o).outline = Node.sift (Label.left? o) s.nodes := by
  have hleft : (fun e : Entry => if (!e.label.isHost) = true then
      (e.rewritten o).label.item? else none) = fun e => Label.left? o e.label := by
    funext e
    unfold Label.left?
    cases e.label.isHost <;> rfl
  have hlisting : Node.entriesIn [] (s.transform o).nodes = Entry.survivors o s.listing :=
    listing_transform o s
  rw [outline, Node.sift, hlisting, Entry.survivors, List.filterMap_map, List.filterMap_filter]
  exact congrArg (List.filterMap · s.listing) hleft

end Sheet

/-! ## The outline of a reader -/

namespace BlockHead

/-- The item of the head of a block. -/
def outline : BlockHead → List Item
  | rule head => [.selector head.selector]
  | atRule _ => []

theorem sift_node (head : BlockHead) (nodes : List Node) (ending : Ending) :
    Node.sift Label.item? [head.node nodes ending] =
      head.outline ++ Node.sift Label.item? nodes := by
  rw [Node.sift_singleton]
  cases head <;> rfl

end BlockHead

namespace OpenBlock

/-- The items in front of the innermost list. -/
def outlineOf : List OpenBlock → List Item
  | [] => []
  | b :: blocks => outlineOf blocks ++ (Node.sift Label.item? b.outer.nodes ++ b.head.outline)

end OpenBlock

namespace Reader

/-- The items a reader has read. -/
def outline (r : Reader) : List Item :=
  OpenBlock.outlineOf r.blocks ++ Node.sift Label.item? r.level.nodes

theorem outline_push (r : Reader) (n : Node) :
    (r.push n).outline = r.outline ++ Node.sift Label.item? [n] := by
  rw [outline, outline, push, Level.push, List.append_assoc, ← Node.sift_append]

theorem outline_into (r : Reader) (head : BlockHead) :
    (enter.into r head).outline = r.outline ++ head.outline := by
  rw [outline, outline, enter.into, List.append_assoc]
  exact List.append_nil _

theorem outline_closed {r : Reader} {b : OpenBlock} {blocks : List OpenBlock}
    (h : r.blocks = b :: blocks) : (r.closed b blocks).outline = r.outline := by
  rw [outline, outline, closed, h, OpenBlock.outlineOf, Node.sift_append, BlockHead.sift_node]
  simp only [List.append_assoc]

/-- The items that a reader completes at the end of a list. -/
theorem Settles.outline_prefix {r r' : Reader} (h : r.Settles r') : r.outline <+: r'.outline := by
  cases h with
  | none hd => exact List.prefix_rfl
  | @some d n hd hn => exact ⟨_, (outline_push r n).symm⟩

/-- No token takes an item away. -/
theorem Move.outline_prefix {r r' : Reader} {t : Token} (h : r.Move t r') :
    r.outline <+: r'.outline := by
  cases h with
  | blank c hd => exact List.prefix_rfl
  | stray hd => exact List.prefix_rfl
  | comment body hd => exact ⟨_, (outline_push r _).symm⟩
  | take hs ht => exact List.prefix_rfl
  | @terminate d n hd hb hn => exact ⟨_, (outline_push r n).symm⟩
  | @enter name d head hd hb hh => exact ⟨_, (outline_into r head).symm⟩
  | close hs hd hb =>
    rw [outline_closed hb]
    exact hs.outline_prefix

/-! ## What becomes of a text -/

/-- The outline of the stylesheet that a reader ends with, if there is no fault in the
tokens. -/
def outcome (r : Reader) (ts : List Token) : Option (List Item) :=
  ((r.run ts).bind finish).toOption.map Sheet.outline

theorem outcome_eq_some_iff {r : Reader} {ts : List Token} {items : List Item} :
    r.outcome ts = some items ↔
      ∃ r₁ s, r.run ts = .ok r₁ ∧ r₁.finish = .ok s ∧ s.outline = items := by
  unfold outcome
  constructor
  · intro h
    cases hr : r.run ts with
    | error e => rw [hr] at h; cases h
    | ok r₁ =>
      rw [hr] at h
      change r₁.finish.toOption.map Sheet.outline = some items at h
      cases hf : r₁.finish with
      | error e => rw [hf] at h; cases h
      | ok s =>
        rw [hf] at h
        exact ⟨r₁, s, rfl, hf, Option.some.inj h⟩
  · rintro ⟨r₁, s, hr, hf, rfl⟩
    rw [hr]
    change r₁.finish.toOption.map Sheet.outline = _
    rw [hf]
    rfl

theorem outcome_of_run_eq {r r' : Reader} {ts us : List Token} (h : r.run ts = r'.run us) :
    r.outcome ts = r'.outcome us := by
  rw [outcome, outcome, h]

theorem exists_outcome_cons {r r₁ : Reader} {t : Token} (h : r.Move t r₁) (ts : List Token) :
    ∃ k, r.outcome (t :: ts) = { r₁ with offset := k }.outcome ts := by
  obtain ⟨k, hk⟩ := run_cons_of_move h ts
  exact ⟨k, outcome_of_run_eq hk⟩

/-- A first token that leads to an outcome is a move. -/
theorem move_of_outcome_cons {r : Reader} {t : Token} {ts : List Token} {items : List Item}
    (h : r.outcome (t :: ts) = some items) :
    ∃ r₁ k, r.Move t r₁ ∧ { r₁ with offset := k }.outcome ts = some items := by
  obtain ⟨r', s, hrun, hfinish, hs⟩ := outcome_eq_some_iff.1 h
  rw [run_cons] at hrun
  cases hstep : r.step t with
  | error e => rw [hstep] at hrun; cases hrun
  | ok r₂ =>
    rw [hstep] at hrun
    obtain ⟨r₁, hm, rfl⟩ := move_of_step hstep
    exact ⟨r₁, _, hm, outcome_eq_some_iff.2 ⟨r', s, hrun, hfinish, hs⟩⟩

/-- What the outcome is at the end of the text. -/
theorem settles_of_outcome_nil {r : Reader} {items : List Item} (h : r.outcome [] = some items) :
    ∃ r₁, r.Settles r₁ ∧ r₁.outline = items := by
  obtain ⟨r', s, hrun, hfinish, rfl⟩ := outcome_eq_some_iff.1 h
  rw [run_nil] at hrun
  obtain rfl := Except.ok.inj hrun
  obtain ⟨r₁, hs, hb, rfl⟩ := settles_of_finish hfinish
  refine ⟨r₁, hs, ?_⟩
  rw [outline, hb]
  rfl

/-- What a reader has read stays, whatever comes. -/
theorem outline_prefix_of_outcome {r : Reader} {ts : List Token} {items : List Item}
    (h : r.outcome ts = some items) : r.outline <+: items := by
  induction ts generalizing r with
  | nil =>
    obtain ⟨r₁, hs, rfl⟩ := settles_of_outcome_nil h
    exact hs.outline_prefix
  | cons t ts ih =>
    obtain ⟨r₁, k, hm, hrest⟩ := move_of_outcome_cons h
    have hnext : ({ r₁ with offset := k } : Reader).outline <+: items := ih hrest
    exact hm.outline_prefix.trans hnext

end Reader

/-- A text is parsed as a stylesheet with some outline if and only if that is what becomes
of it from the start. -/
theorem Sheet.exists_outline_iff {css : Text} {items : List Item} :
    (∃ s, parse css = .ok s ∧ s.outline = items) ↔
      Reader.outcome {} (Token.ofText css) = some items := by
  rw [Reader.outcome_eq_some_iff]
  constructor
  · rintro ⟨s, hparse, hs⟩
    obtain ⟨r, hrun, hfinish⟩ := run_of_parse hparse
    exact ⟨r, s, hrun, hfinish, hs⟩
  · rintro ⟨r, s, hrun, hfinish, hs⟩
    exact ⟨s, parse_of_run hrun hfinish, hs⟩

/-! ## Reading on -/

namespace Reader

/-- A reader after more nodes of the same list, which have these items. -/
structure Continues (r : Reader) (items : List Item) (r' : Reader) : Prop where
  draft : r'.draft = none
  blocks : r'.blocks = r.blocks
  outline : r'.outline = r.outline ++ items

theorem Continues.trans {r r' r'' : Reader} {items items' : List Item}
    (h : r.Continues items r') (h' : r'.Continues items' r'') :
    r.Continues (items ++ items') r'' :=
  ⟨h'.draft, h'.blocks.trans h.blocks, by rw [h'.outline, h.outline, List.append_assoc]⟩

/-- Up to the tokens `us`, the tokens `ts` are more nodes with these items. -/
def Reads (r : Reader) (ts : List Token) (items : List Item) (us : List Token) : Prop :=
  ∃ r', r.Continues items r' ∧ r.outcome ts = r'.outcome us

/-- Whatever becomes of the tokens `ts`, these items are not next. -/
def Misreads (r : Reader) (ts : List Token) (items : List Item) : Prop :=
  ∀ more, r.outcome ts ≠ some (r.outline ++ (items ++ more))

/-- The tokens are read as these items if and only if `good` is true. -/
def Fares (good : Bool) (r : Reader) (ts : List Token) (items : List Item)
    (us : List Token) : Prop :=
  if good = true then r.Reads ts items us else r.Misreads ts items

theorem Reads.fares {r : Reader} {ts us : List Token} {items : List Item}
    (h : r.Reads ts items us) : Fares true r ts items us := h

theorem Reads.refl {r : Reader} (hd : r.draft = none) (ts : List Token) : r.Reads ts [] ts :=
  ⟨r, ⟨hd, rfl, (List.append_nil _).symm⟩, rfl⟩

/-- What comes first is read, and then what follows. -/
theorem Reads.trans_fares {good : Bool} {r : Reader} {ts us vs : List Token}
    {items items' : List Item} (h : r.Reads ts items us)
    (h' : ∀ r', r.Continues items r' → Fares good r' us items' vs) :
    Fares good r ts (items ++ items') vs := by
  obtain ⟨r', hr', houtcome⟩ := h
  have hrest := h' r' hr'
  unfold Fares at hrest ⊢
  cases good with
  | true =>
    obtain ⟨r'', hr'', houtcome'⟩ := hrest
    exact ⟨r'', hr'.trans hr'', houtcome.trans houtcome'⟩
  | false =>
    intro more hmore
    refine hrest more ?_
    rw [← houtcome, hmore, hr'.outline]
    simp only [List.append_assoc]

theorem Reads.trans {r : Reader} {ts us vs : List Token} {items items' : List Item}
    (h : r.Reads ts items us) (h' : ∀ r', r.Continues items r' → r'.Reads us items' vs) :
    r.Reads ts (items ++ items') vs := by
  have hall : Fares true r ts (items ++ items') vs := h.trans_fares h'
  exact hall

theorem Misreads.append {r : Reader} {ts : List Token} {items : List Item}
    (h : r.Misreads ts items) (items' : List Item) : r.Misreads ts (items ++ items') := by
  intro more
  rw [List.append_assoc]
  exact h (items' ++ more)

/-- Two parts are read as they should be if and only if the first is, and then the
second. -/
theorem Fares.and {good good' : Bool} {r : Reader} {ts us vs : List Token}
    {items items' : List Item} (h : Fares good r ts items us)
    (h' : ∀ r', r.Continues items r' → Fares good' r' us items' vs) :
    Fares (good && good') r ts (items ++ items') vs := by
  cases good with
  | true => exact Reads.trans_fares h h'
  | false => exact Misreads.append h items'

/-! ## Gaps, comments, statements and blocks -/

theorem reads_of_move {r r₁ : Reader} {t : Token} {items : List Item} (h : r.Move t r₁)
    (hr₁ : r.Continues items r₁) (ts : List Token) : r.Reads (t :: ts) items ts := by
  obtain ⟨k, hk⟩ := exists_outcome_cons h ts
  exact ⟨{ r₁ with offset := k }, ⟨hr₁.draft, hr₁.blocks, hr₁.outline⟩, hk⟩

theorem reads_gap {r : Reader} (hd : r.draft = none) (g : Text) (ts : List Token) :
    r.Reads (Token.ofGap g ++ ts) [] ts := by
  obtain ⟨k, hk⟩ := run_ofGap_append hd g ts
  exact ⟨{ r with before := r.before ++ g, offset := k },
    ⟨hd, rfl, (List.append_nil _).symm⟩, outcome_of_run_eq hk⟩

theorem reads_comment {r : Reader} (hd : r.draft = none) (body : Text) (ts : List Token) :
    r.Reads (.comment body true :: ts) [] ts :=
  reads_of_move (.comment body hd) ⟨rfl, rfl, outline_push r _⟩ ts

/-- The node of a statement in another place has the same item. -/
theorem exists_node {d : Draft} {before after : Text} {n : Node}
    (h : d.node before after = .ok n) (before' after' : Text) :
    ∃ n', d.node before' after' = .ok n' ∧
      Node.sift Label.item? [n'] = Node.sift Label.item? [n] := by
  rcases Draft.node_cases h with ⟨name, hname, rfl⟩ | ⟨k, hname, hk, rfl⟩
  · refine ⟨.atStatement (d.atHead before' after' name) {}, ?_, ?_⟩
    · rw [Draft.node, hname]
    · rw [Node.sift_singleton, Node.sift_singleton]
      rfl
  · refine ⟨.declaration (d.declaration before' after' k), ?_, ?_⟩
    · rw [Draft.node, hname, hk]
    · rw [Node.sift_singleton, Node.sift_singleton]
      rfl

/-- The head of a block in another place has the same item. -/
theorem exists_blockHead? {d : Draft} {before : Text} {head : BlockHead}
    (h : d.blockHead? before = some head) (before' : Text) :
    ∃ head', d.blockHead? before' = some head' ∧ head'.outline = head.outline := by
  unfold Draft.blockHead? at h ⊢
  split at h
  · cases h
    exact ⟨_, rfl, rfl⟩
  · split at h
    · cases h
    · rename_i hreversed
      cases h
      exact ⟨_, if_neg hreversed, rfl⟩

/-- The reader behind a statement that is not complete yet. -/
theorem exists_started {r : Reader} {us : List Token} {d : Draft} {gap : Text}
    (hd : r.draft = none) (hs : Statement us d) (hgap : IsGap gap)
    (hb : d.brackets = [] ∨ gap = []) (ts : List Token) :
    ∃ (r' : Reader) (m : Nat), r'.draft = some ((d.withGap gap).startedAt m) ∧
      r'.blocks = r.blocks ∧ r'.level = r.level ∧ r'.outline = r.outline ∧
      r.outcome (us ++ Token.ofGap gap ++ ts) = r'.outcome ts := by
  obtain ⟨m, k, hk⟩ := run_append_of_statement_between [] hd hs hgap hb ts
  rw [Token.ofGap_nil, List.nil_append] at hk
  exact ⟨{ r with
    before := r.before ++ [], draft := some ((d.withGap gap).startedAt m), offset := k },
    m, rfl, rfl, rfl, rfl, outcome_of_run_eq hk⟩

/-- A statement with its semicolon. -/
theorem reads_statement {r : Reader} {us : List Token} {d : Draft} {before after gap : Text}
    {n : Node} (hd : r.draft = none) (hs : Statement us d) (hb : d.brackets = [])
    (hgap : IsGap gap) (hn : d.node before after = .ok n) (ts : List Token) :
    r.Reads (us ++ Token.ofGap gap ++ .semicolon :: ts) (Node.sift Label.item? [n]) ts := by
  obtain ⟨r₁, m, hd₁, hblocks, _, houtline, houtcome⟩ :=
    exists_started hd hs hgap (.inl hb) (.semicolon :: ts)
  obtain ⟨n', hn', hitem⟩ := exists_node hn r₁.before gap
  have hmove : r₁.Move .semicolon
      { r₁.push n' with level := { (r₁.push n').level with terminated := true } } :=
    .terminate hd₁ hb (Draft.node_startedAt.2 hn')
  obtain ⟨r', hr', houtcome'⟩ := reads_of_move hmove ⟨rfl, rfl, outline_push r₁ n'⟩ ts
  refine ⟨r', ⟨hr'.draft, hr'.blocks.trans hblocks, ?_⟩, houtcome.trans houtcome'⟩
  rw [hr'.outline, houtline, hitem]

/-- A statement that is still open is completed by the end of its list. -/
theorem outcome_of_settles {r r' : Reader} {ts : List Token} (hs : r.Settles r')
    (hts : ts = [] ∨ (∃ us, ts = .closer .curly :: us) ∧
      ∀ d, r.draft = some d → d.brackets = []) : r.outcome ts = r'.outcome ts := by
  cases hs with
  | none hd => rfl
  | @some d n hd hn =>
    rcases hts with rfl | ⟨⟨us, rfl⟩, hb⟩
    · have hfinish : r.finish = Reader.finish { r.push n with
          level := { (r.push n).level with terminated := false }, before := d.gap } := by
        unfold finish
        rw [hd]
        dsimp only
        rw [cutOff_of_node hn]
        rfl
      rw [outcome, outcome, run_nil, run_nil]
      exact congrArg (fun x => x.toOption.map Sheet.outline) hfinish
    · refine outcome_of_run_eq ?_
      have hstep : r.step (.closer .curly) = Reader.step { r.push n with
          level := { (r.push n).level with terminated := false }, before := d.gap }
            (.closer .curly) := by
        unfold step
        rw [hd]
        dsimp only
        unfold extend
        rw [if_neg (not_not_intro (hb d hd))]
        dsimp only
        rw [cutOff_of_node hn]
        rfl
      rw [run_cons, run_cons, hstep]

/-- A statement at the end of its list. -/
theorem reads_last {r : Reader} {us ts : List Token} {d : Draft} {before after gap : Text}
    {n : Node} (hd : r.draft = none) (hs : Statement us d) (hgap : IsGap gap)
    (hn : d.node before after = .ok n)
    (hts : d.brackets = [] ∧ (∃ vs, ts = .closer .curly :: vs) ∨
      (d.brackets = [] ∨ gap = []) ∧ ts = []) :
    r.Reads (us ++ Token.ofGap gap ++ ts) (Node.sift Label.item? [n]) ts := by
  obtain ⟨r₁, m, hd₁, hblocks, _, houtline, houtcome⟩ :=
    exists_started hd hs hgap (hts.elim (fun h => .inl h.1) (·.1)) ts
  obtain ⟨n', hn', hitem⟩ := exists_node hn r₁.before []
  have hsettles := Settles.some hd₁ (Draft.node_startedAt.2 hn')
  have hcontinues : r.Continues (Node.sift Label.item? [n]) { r₁.push n' with
      level := { (r₁.push n').level with terminated := false },
      before := ((d.withGap gap).startedAt m).gap } := by
    refine ⟨rfl, hblocks, ?_⟩
    rw [← hitem, ← houtline]
    exact outline_push r₁ n'
  refine ⟨_, hcontinues, houtcome.trans (outcome_of_settles hsettles ?_)⟩
  rcases hts with ⟨hb, hclose⟩ | ⟨_, hnil⟩
  · refine .inr ⟨hclose, ?_⟩
    intro d' hd'
    rw [hd₁] at hd'
    obtain rfl := Option.some.inj hd'
    exact hb
  · exact .inl hnil

/-- A statement with its block.  What is in the block is read as if it stood in a text of
its own, up to the bracket that closes it. -/
theorem fares_block {good : Bool} {r : Reader} {us vs ts : List Token} {d : Draft}
    {before gap : Text} {head : BlockHead} {items : List Item} (hd : r.draft = none)
    (hs : Statement us d) (hb : d.brackets = []) (hgap : IsGap gap)
    (hh : (d.withGap gap).blockHead? before = some head)
    (hinner : ∀ r' : Reader, r'.draft = none →
      Fares good r' vs items (.closer .curly :: ts)) :
    Fares good r (us ++ Token.ofGap gap ++ .opener [] .curly :: vs) (head.outline ++ items)
      ts := by
  obtain ⟨r₁, m, hd₁, hblocks, _, houtline, houtcome⟩ :=
    exists_started hd hs hgap (.inl hb) (.opener [] .curly :: vs)
  obtain ⟨head', hh', hitem⟩ := exists_blockHead? hh r₁.before
  have hmove : r₁.Move (.opener [] .curly) (enter.into r₁ head') := .enter hd₁ hb hh'
  obtain ⟨k, hk⟩ := exists_outcome_cons hmove vs
  have hinside := hinner { enter.into r₁ head' with offset := k } rfl
  have hentered : ({ enter.into r₁ head' with offset := k } : Reader).outline =
      r.outline ++ head.outline := by
    rw [← hitem, ← houtline]
    exact outline_into r₁ head'
  unfold Fares at hinside ⊢
  cases good with
  | true =>
    obtain ⟨r₂, hr₂, hread⟩ := hinside
    obtain ⟨k', hk'⟩ := exists_outcome_cons (.close (.none hr₂.draft)
      (fun d' hd' => by rw [hr₂.draft] at hd'; cases hd') hr₂.blocks) ts
    have hclosed := outline_closed hr₂.blocks
    refine ⟨_, ⟨?_, ?_, ?_⟩, houtcome.trans (hk.trans (hread.trans hk'))⟩
    · rfl
    · exact hblocks
    · rw [← List.append_assoc, ← hentered, ← hr₂.outline]
      exact hclosed
  | false =>
    intro more hmore
    refine hinside more ?_
    rw [← hk, ← houtcome, hmore, hentered]
    simp only [List.append_assoc]

end Reader

/-! ## The next item of a text

If the next item is a declaration, its characters are the next ones of the text, and then
comes something that ends it. -/

/-- A text in which a statement before it is complete. -/
def Stops (rest : Text) : Prop := ∀ c, rest.head? = some c → c = ';' ∨ c = '\x7d'

/-- The text starts with a declaration, up to a place where it is complete. -/
def StartsWith (text prop value : Text) : Prop :=
  ∃ u w g rest, text = prop ++ u ++ ':' :: w ++ value ++ g ++ rest ∧
    IsGap u ∧ IsGap w ∧ IsGap g ∧ Stops rest

namespace Draft

/-- Only the first token of a statement makes it an at-rule. -/
theorem Takes.name_eq_none {d d' : Draft} {t : Token} (h : d.Takes t d') (hname : d.name = none)
    (ht : d.isFresh = true → ∀ name, t ≠ .atName name) : d'.name = none := by
  cases h with
  | blank c hb => exact hname
  | name name hb hf => exact absurd rfl (ht hf name)
  | colon hb =>
    unfold addColon
    split
    · exact hname
    · exact hname
  | add t brackets => exact hname

/-- The characters of the declaration that a statement is. -/
theorem content_of_node {d : Draft} {before after prop value : Text} {n : Node}
    {more : List Item} (hname : d.name = none) (hc : d.ColonInPlace)
    (hn : d.node before after = .ok n)
    (hitem : Node.sift Label.item? [n] <+: .declaration prop value :: more) :
    ∃ u w, d.content = prop ++ u ++ ':' :: w ++ value ∧ IsGap u ∧ IsGap w := by
  rcases node_cases hn with ⟨name, hname', _⟩ | ⟨k, _, hk, rfl⟩
  · rw [hname] at hname'
    cases hname'
  rw [Node.sift_singleton] at hitem
  obtain ⟨rest, hrest⟩ := hitem
  obtain ⟨rfl, rfl⟩ := Item.declaration.inj (List.cons.inj hrest).1
  obtain ⟨b, hb⟩ := hc k hk
  have hbody := body_declaration before [] hb
  rw [Declaration.body, List.append_nil] at hbody
  refine ⟨Text.takeEnd isBlank (d.content.take k), (d.content.drop (k + 1)).takeWhile isBlank,
    hbody.symm.trans ?_, isGap_takeEnd _, isGap_takeWhile _⟩
  simp [declaration]

theorem startsWith_of_node {d : Draft} {before after rest prop value : Text} {n : Node}
    {more : List Item} (hname : d.name = none) (hgap : IsGap d.gap) (hc : d.ColonInPlace)
    (hrest : Stops rest) (hn : d.node before after = .ok n)
    (hitem : Node.sift Label.item? [n] <+: .declaration prop value :: more) :
    StartsWith (d.content ++ d.gap ++ rest) prop value := by
  obtain ⟨u, w, hcontent, hu, hw⟩ := content_of_node hname hc hn hitem
  exact ⟨u, w, d.gap, rest, by rw [hcontent], hu, hw, hgap, hrest⟩

end Draft

namespace Reader

theorem startsWith_of_draft {r : Reader} {d : Draft} {ts : List Token}
    {prop value : Text} {more : List Item} (hd : r.draft = some d) (hname : d.name = none)
    (hfresh : d.isFresh = false) (hgap : IsGap d.gap) (hc : d.ColonInPlace)
    (hread : ∀ t ∈ ts, t.IsRead)
    (h : r.outcome ts = some (r.outline ++ .declaration prop value :: more)) :
    StartsWith (d.content ++ d.gap ++ Token.textOf ts) prop value := by
  induction ts generalizing r d with
  | nil =>
    obtain ⟨r₁, hs, houtline⟩ := settles_of_outcome_nil h
    cases hs with
    | none hnone => rw [hd] at hnone; cases hnone
    | @some d' n hd' hn =>
      rw [hd] at hd'
      obtain rfl := Option.some.inj hd'
      have hpush := (outline_push r n).symm.trans houtline
      exact Draft.startsWith_of_node hname hgap hc nofun hn
        ⟨[], by rw [List.append_nil, List.append_cancel_left hpush]⟩
  | cons t ts ih =>
    obtain ⟨r₁, k, hm, hrest⟩ := move_of_outcome_cons h
    have hprefix : r₁.outline <+: r.outline ++ .declaration prop value :: more :=
      outline_prefix_of_outcome (r := { r₁ with offset := k }) hrest
    have hpush : ∀ n, (r.push n).outline <+: r.outline ++ .declaration prop value :: more →
        Node.sift Label.item? [n] <+: .declaration prop value :: more := by
      intro n hn
      rw [outline_push] at hn
      exact (List.prefix_append_right_inj _).1 hn
    cases hm with
    | blank c hnone => rw [hd] at hnone; cases hnone
    | stray hnone => rw [hd] at hnone; cases hnone
    | comment body hnone => rw [hd] at hnone; cases hnone
    | @take _ d' hs htake =>
      rw [statement_of_draft hd] at htake
      have htakes := Draft.takes_of_take? htake
      have ht : t.IsRead := hread t List.mem_cons_self
      have hname' : d'.name = none := htakes.name_eq_none hname (by rw [hfresh]; nofun)
      have htext := htakes.text (by rw [hfresh]; nofun)
      rw [Draft.text_of_name_eq_none hname, Draft.text_of_name_eq_none hname'] at htext
      have hnext := ih (r := { r with draft := some d', offset := k }) rfl hname'
        (htakes.isFresh ht.text_ne_nil (by rw [hfresh]; nofun)) (htakes.isGap ht hgap)
        (hc.takes htakes) (fun u hu => hread u (List.mem_cons_of_mem _ hu)) hrest
      rw [htext, List.append_assoc] at hnext
      rwa [Token.textOf_cons]
    | @terminate d' n hd' hb hn =>
      rw [hd] at hd'
      obtain rfl := Option.some.inj hd'
      exact Draft.startsWith_of_node hname hgap hc (by simp [Stops, Token.text]) hn
        (hpush n hprefix)
    | @enter name d' head hd' hb hh =>
      -- The next item would be a selector.
      rw [hd] at hd'
      obtain rfl := Option.some.inj hd'
      rw [outline_into, List.prefix_append_right_inj] at hprefix
      obtain ⟨rest, hrest⟩ := hprefix
      rcases Draft.blockHead_cases hh with ⟨name, hname', _⟩ | ⟨_, rfl⟩
      · rw [hname] at hname'
        cases hname'
      · cases hrest
    | @close r₂ b blocks hs hb hbs =>
      rw [outline_closed hbs] at hprefix
      cases hs with
      | none hnone => rw [hd] at hnone; cases hnone
      | @some d' n hd' hn =>
        rw [hd] at hd'
        obtain rfl := Option.some.inj hd'
        exact Draft.startsWith_of_node hname hgap hc
          (by simp [Stops, Token.text, Bracket.closing]) hn (hpush n hprefix)

/-- Where a statement starts that is no at-rule, the next item is a declaration only if the
text starts with it. -/
theorem startsWith_of_outcome {r : Reader} {t : Token} {ts : List Token} {prop value : Text}
    {more : List Item} (hd : r.draft = none) (hs : t.startsStatement = true)
    (hname : ∀ name, t ≠ .atName name) (hread : ∀ u ∈ t :: ts, u.IsRead)
    (h : r.outcome (t :: ts) = some (r.outline ++ .declaration prop value :: more)) :
    StartsWith (Token.textOf (t :: ts)) prop value := by
  obtain ⟨r₁, k, hm, hrest⟩ := move_of_outcome_cons h
  have hopen : ∀ d, Draft.take? { offset := r.offset } t = some d →
      { r with draft := some d, offset := k }.outcome ts =
        some (r.outline ++ .declaration prop value :: more) →
      StartsWith (Token.textOf (t :: ts)) prop value := by
    intro d htake houtcome
    have htakes := Draft.takes_of_take? htake
    have ht : t.IsRead := hread t List.mem_cons_self
    have htext := htakes.text fun _ => rfl
    have hname' : d.name = none := htakes.name_eq_none rfl fun _ => hname
    rw [Draft.text_of_name_eq_none hname', show Draft.text { offset := r.offset } = [] from rfl,
      List.nil_append] at htext
    have hnext := startsWith_of_draft (r := { r with draft := some d, offset := k }) rfl hname'
      (htakes.isFresh ht.text_ne_nil fun _ => hs) (htakes.isGap ht isGap_nil)
      ((show Draft.ColonInPlace { offset := r.offset } from nofun).takes htakes)
      (fun u hu => hread u (List.mem_cons_of_mem _ hu)) houtcome
    rw [htext] at hnext
    rwa [Token.textOf_cons]
  cases hm with
  | blank c _ => cases hs
  | stray _ => cases hs
  | comment body _ => cases hs
  | @take _ d hs' htake =>
    rw [statement_of_draft_eq_none hd] at htake
    exact hopen d htake hrest
  | terminate hd' hb hn => rw [hd] at hd'; cases hd'
  | enter hd' hb hh => rw [hd] at hd'; cases hd'
  | close _ _ _ => cases hs

end Reader

end HostSheet
