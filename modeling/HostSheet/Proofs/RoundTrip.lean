import HostSheet.Proofs.Moves
import HostSheet.Proofs.Tokens
import HostSheet.Sheet.Print

set_option autoImplicit false

/-!
# A stylesheet that was read is written back as it was

A reader holds, at every moment, exactly the characters that it was given: in the open
blocks from the outside in, in the list it is reading, in the gap, and in the statement it
is in the middle of (`Reader.text`).  Every move adds the characters of its token
(`text_of_move`), so the sheet at the end is written as the whole text.

The semicolons are what makes this delicate.  They are not kept with the nodes, so a list
must be one that is written with all of them for as long as more nodes may follow
(`Level.IsComplete`).  Only the end of a list may leave the last one out.
-/

namespace HostSheet

open Syntax

namespace Node

/-! ## Writing longer lists -/

theorem printAll_append_comment (terminated : Bool) (ns : List Node) (c : Comment) :
    printAll terminated (ns ++ [.comment c]) = printAll terminated ns ++ c.print := by
  induction ns with
  | nil => simp [printAll, print]
  | cons n ns ih =>
    have hany : (ns ++ [comment c]).any (!·.isComment) = ns.any (!·.isComment) := by
      simp [isComment]
    rw [List.cons_append, printAll, printAll, ih, hany, List.append_assoc]

/-- A statement behind a list gives every statement of the list its semicolon. -/
theorem printAll_append_statement (terminated : Bool) (ns : List Node) {n : Node}
    (h : n.isComment = false) :
    printAll terminated (ns ++ [n]) = printAll true ns ++ print terminated n := by
  induction ns with
  | nil => simp [printAll]
  | cons m ns ih =>
    have hany : (ns ++ [n]).any (!·.isComment) = true := by simp [h]
    rw [List.cons_append, printAll, printAll, ih, hany, Bool.or_true, Bool.true_or,
      List.append_assoc]

end Node

/-! ## The characters of a statement -/

namespace Declaration

/-- What a declaration adds to the gap before it, its semicolon apart. -/
def body (d : Declaration) : Text := d.prop ++ d.between ++ d.value ++ d.after

theorem print_eq (d : Declaration) : d.print = d.before ++ d.body := by
  simp [print, body]

end Declaration

namespace BlockHead

/-- What stands in front of the bracket of a block. -/
def print : BlockHead → Text
  | rule head => head.print
  | atRule head => head.print

theorem print_node (terminated : Bool) (head : BlockHead) (ns : List Node) (e : Ending) :
    (head.node ns e).print terminated =
      head.print ++ '\x7b' :: Node.printAll e.terminated ns ++ e.after ++ ['\x7d'] := by
  cases head <;> rfl

theorem isComment_node (head : BlockHead) (ns : List Node) (e : Ending) :
    (head.node ns e).isComment = false := by
  cases head <;> rfl

end BlockHead

namespace Draft

/-- The characters of a statement: the at sign and the name, the content and the gap. -/
def text (d : Draft) : Text := (d.name.map ('@' :: ·)).getD [] ++ d.content ++ d.gap

/-- The colon stands where the statement says. -/
def ColonInPlace (d : Draft) : Prop :=
  ∀ k, d.colon = some k → ∃ b, d.content = d.content.take k ++ ':' :: b

theorem body_declaration {d : Draft} {k : Nat} {b : Text} (before after : Text)
    (h : d.content = d.content.take k ++ ':' :: b) :
    (d.declaration before after k).body = d.content ++ after := by
  have hk : (d.content.take k).length = k := by
    rw [List.length_take]
    have := congrArg List.length h
    simp only [List.length_append, List.length_take, List.length_cons] at this
    omega
  have hb : d.content.drop (k + 1) = b := by
    conv => lhs; rw [h]
    rw [List.drop_append, hk]
    simp [hk]
  unfold declaration Declaration.body
  dsimp only
  calc Text.dropEnd isBlank (d.content.take k) ++
        (Text.takeEnd isBlank (d.content.take k) ++
          ':' :: (d.content.drop (k + 1)).takeWhile isBlank) ++
        Text.dropStart isBlank (d.content.drop (k + 1)) ++ after
      = (Text.dropEnd isBlank (d.content.take k) ++ Text.takeEnd isBlank (d.content.take k)) ++
        ':' :: ((d.content.drop (k + 1)).takeWhile isBlank ++
          Text.dropStart isBlank (d.content.drop (k + 1))) ++ after := by simp
    _ = d.content.take k ++ ':' :: d.content.drop (k + 1) ++ after := by
        rw [Text.dropEnd_append_takeEnd, Text.dropStart, List.takeWhile_append_dropWhile]
    _ = d.content ++ after := by rw [hb, ← h]

theorem print_atHead (d : Draft) (before between name : Text) :
    (d.atHead before between name).print =
      before ++ '@' :: name ++ d.content ++ between := by
  unfold atHead AtHead.print
  dsimp only
  rw [List.append_assoc (before ++ '@' :: name), Text.dropStart,
    List.takeWhile_append_dropWhile]

/-- The node of a statement has the characters of the statement, its gap replaced. -/
theorem print_node {d : Draft} {n : Node} {before after : Text} (hc : d.ColonInPlace)
    (h : d.node before after = .ok n) (terminated : Bool) :
    n.print terminated =
      before ++ { d with gap := after }.text ++ Node.terminator terminated := by
  rcases node_cases h with ⟨name, hname, rfl⟩ | ⟨k, hname, hk, rfl⟩
  · rw [Node.print, print_atHead]
    simp [text, hname, content]
  · obtain ⟨b, hb⟩ := hc k hk
    rw [Node.print, Declaration.print_eq, body_declaration before after hb]
    simp [text, hname, content, declaration]

theorem print_blockHead {d : Draft} {before : Text} {head : BlockHead}
    (h : d.blockHead? before = some head) : head.print = before ++ d.text := by
  rcases blockHead_cases h with ⟨name, hname, rfl⟩ | ⟨hname, rfl⟩
  · rw [BlockHead.print, print_atHead]
    simp [text, hname]
  · simp [BlockHead.print, RuleHead.print, text, hname]

/-! ## A token in a statement -/

theorem text_add (d : Draft) (t : Token) : (d.add t).text = d.text ++ t.text := by
  simp [text, add, content]

theorem ColonInPlace.add {d : Draft} (h : d.ColonInPlace) (t : Token) :
    (d.add t).ColonInPlace := by
  intro k hk
  obtain ⟨b, hb⟩ := h k hk
  refine ⟨b ++ d.gap ++ t.text, ?_⟩
  have hlen : k ≤ d.content.length := by
    have := congrArg List.length hb
    simp only [List.length_append, List.length_take, List.length_cons] at this
    omega
  rw [content_add, List.append_assoc d.content, List.take_append_of_le_length hlen]
  conv => lhs; rw [hb]
  simp

theorem ColonInPlace.addColon {d : Draft} (h : d.ColonInPlace) : d.addColon.ColonInPlace := by
  unfold Draft.addColon
  split
  · exact h.add .colon
  · intro k hk
    obtain rfl := Option.some.inj hk
    refine ⟨[], ?_⟩
    have hcontent : ({ d.add .colon with
        colon := some (d.reversed.length + d.gap.length) } : Draft).content =
          d.content ++ d.gap ++ [':'] := content_add d .colon
    have hlen : (d.content ++ d.gap).length = d.reversed.length + d.gap.length := by
      simp [content]
    rw [hcontent, ← hlen, List.take_left]

theorem text_addColon (d : Draft) : d.addColon.text = d.text ++ [':'] := by
  unfold addColon
  split
  · exact text_add d .colon
  · exact text_add d .colon

/-- A statement grows by the characters of the tokens it takes. -/
theorem Takes.text {d d' : Draft} {t : Token} (h : d.Takes t d')
    (hgap : d.isFresh = true → d.gap = []) : d'.text = d.text ++ t.text := by
  cases h with
  | blank c hb => simp [Draft.text, content, Token.text]
  | name name hb hf =>
    have hg := hgap hf
    simp only [isFresh, Bool.and_eq_true, Option.isNone_iff_eq_none, List.isEmpty_iff] at hf
    simp [Draft.text, content, hf, hg, Token.text]
  | colon hb => exact text_addColon d
  | add t brackets => exact text_add d t

theorem ColonInPlace.takes {d d' : Draft} {t : Token} (hc : d.ColonInPlace)
    (h : d.Takes t d') : d'.ColonInPlace := by
  cases h with
  | blank c hb => exact hc
  | name name hb hf => exact hc
  | colon hb => exact hc.addColon
  | add t brackets => exact hc.add t

theorem isFresh_add {d : Draft} {t : Token} (ht : t.text ≠ []) (brackets : List Bracket) :
    { d.add t with brackets := brackets }.isFresh = false := by
  simp [isFresh, add, ht]

/-- Once a token has gone into a statement, the statement is no longer empty. -/
theorem Takes.isFresh {d d' : Draft} {t : Token} (h : d.Takes t d') (ht : t.text ≠ [])
    (hs : d.isFresh = true → t.startsStatement = true) : d'.isFresh = false := by
  cases h with
  | blank c hb =>
    cases hf : d.isFresh with
    | true => cases hs hf
    | false => exact hf
  | name name hb hf => rfl
  | colon hb =>
    unfold addColon
    split <;> exact isFresh_add (t := .colon) ht d.brackets
  | add t brackets => exact isFresh_add ht brackets

end Draft

/-! ## The characters a reader holds -/

namespace Level

/-- Every statement of a list so far has its semicolon. -/
def IsComplete (l : Level) : Prop :=
  Node.printAll l.terminated l.nodes = Node.printAll true l.nodes

end Level

namespace OpenBlock

/-- The characters up to and with the bracket that opens a block. -/
def text (b : OpenBlock) : Text :=
  Node.printAll true b.outer.nodes ++ b.head.print ++ ['\x7b']

end OpenBlock

namespace Reader

/-- The characters of the open blocks, the outermost first. -/
def outerText (blocks : List OpenBlock) : Text := blocks.reverse.flatMap OpenBlock.text

theorem outerText_cons (b : OpenBlock) (blocks : List OpenBlock) :
    outerText (b :: blocks) = outerText blocks ++ b.text := by
  simp [outerText]

/-- All characters that a reader holds. -/
def text (r : Reader) : Text :=
  outerText r.blocks ++ Node.printAll true r.level.nodes ++ r.before ++
    (r.draft.map Draft.text).getD []

/-- What makes a reader write back what it read. -/
structure Faithful (r : Reader) : Prop where
  /-- The list can go on. -/
  complete : r.level.IsComplete
  colon : ∀ d, r.draft = some d → d.ColonInPlace
  started : ∀ d, r.draft = some d → d.isFresh = false

theorem text_of_draft_eq_none {r : Reader} (h : r.draft = none) :
    r.text = outerText r.blocks ++ Node.printAll true r.level.nodes ++ r.before := by
  simp [text, h]

theorem Faithful.colon_statement {r : Reader} (h : r.Faithful) :
    r.statement.ColonInPlace := by
  unfold statement
  cases hd : r.draft with
  | none => intro k hk; cases hk
  | some d => exact h.colon d hd

theorem gap_statement {r : Reader} (h : r.Faithful) (hf : r.statement.isFresh = true) :
    r.statement.gap = [] := by
  unfold statement at hf ⊢
  cases hd : r.draft with
  | none => rfl
  | some d =>
    rw [hd] at hf
    exact absurd hf (by simp [h.started d hd])

/-- A list that is completed without its last semicolon is written as the reader has it. -/
theorem Settles.text {r r' : Reader} (hs : r.Settles r') (h : r.Faithful) :
    outerText r'.blocks ++ Node.printAll r'.level.terminated r'.level.nodes ++ r'.before =
      r.text := by
  cases hs with
  | none hd => rw [h.complete, text_of_draft_eq_none hd]
  | @some d n hd hn =>
    simp only [push, Level.push]
    rw [Node.printAll_append_statement false _ (Draft.isComment_of_node hn),
      Draft.print_node (h.colon d hd) hn false]
    simp [Reader.text, hd, Draft.text, Draft.content, Node.terminator]

theorem Settles.blocks_eq {r r' : Reader} (hs : r.Settles r') : r'.blocks = r.blocks := by
  cases hs <;> rfl

/-- The characters of a reader after a statement was added to its list. -/
theorem text_push_terminated {r : Reader} {d : Draft} {n : Node} (h : r.Faithful)
    (hd : r.draft = some d) (hn : d.node r.before d.gap = .ok n) :
    Node.printAll true (r.level.nodes ++ [n]) =
      Node.printAll true r.level.nodes ++ (r.before ++ d.text ++ [';']) := by
  rw [Node.printAll_append_statement true _ (Draft.isComment_of_node hn),
    Draft.print_node (h.colon d hd) hn true]
  rfl

/-- A move adds the characters of its token, and what it leaves is faithful again. -/
theorem Move.faithful {r r' : Reader} {t : Token} (hm : r.Move t r') (h : r.Faithful)
    (ht : t.IsRead) : r'.Faithful ∧ r'.text = r.text ++ t.text := by
  cases hm with
  | blank c hd =>
    exact ⟨⟨h.complete, h.colon, h.started⟩, by simp [text, hd, Token.text]⟩
  | stray hd =>
    exact ⟨⟨h.complete, h.colon, h.started⟩, by simp [text, hd, Token.text]⟩
  | comment body hd =>
    refine ⟨⟨?_, by simp [push], by simp [push]⟩, ?_⟩
    · have := h.complete
      simp only [Level.IsComplete, push, Level.push] at this ⊢
      rw [Node.printAll_append_comment, Node.printAll_append_comment, this]
    · simp [text, push, Level.push, Node.printAll_append_comment, Comment.print, hd,
        Token.text]
  | @take _ d hs htake =>
    refine ⟨⟨h.complete, ?_, ?_⟩, ?_⟩
    · intro d' hd'
      obtain rfl := Option.some.inj hd'
      exact h.colon_statement.takes (Draft.takes_of_take? htake)
    · intro d' hd'
      obtain rfl := Option.some.inj hd'
      refine (Draft.takes_of_take? htake).isFresh ht.text_ne_nil (fun hf => hs ?_)
      cases hd : r.draft with
      | none => rfl
      | some d₀ =>
        rw [statement_of_draft hd, h.started d₀ hd] at hf
        cases hf
    · have htext := (Draft.takes_of_take? htake).text (gap_statement h)
      have hstatement : r.statement.text = (r.draft.map Draft.text).getD [] := by
        unfold statement
        cases r.draft <;> rfl
      simp only [text, Option.map_some, Option.getD_some, htext, hstatement,
        List.append_assoc]
  | @terminate d n hd hb hn =>
    refine ⟨⟨rfl, by simp [push], by simp [push]⟩, ?_⟩
    simp only [text, push, Level.push]
    rw [text_push_terminated h hd hn]
    simp [hd, Token.text]
  | @enter name d head hd hb hh =>
    refine ⟨⟨rfl, by simp [enter.into], by simp [enter.into]⟩, ?_⟩
    obtain rfl := ht.opener_curly
    simp [text, enter.into, outerText_cons, OpenBlock.text, Draft.print_blockHead hh, hd,
      Node.printAll, Token.text, Bracket.opening]
  | @close r₁ b blocks hs hd hb =>
    refine ⟨⟨?_, by simp [closed], by simp [closed]⟩, ?_⟩
    · simp only [Level.IsComplete, closed]
      rw [Node.printAll_append_statement _ _ (BlockHead.isComment_node ..),
        Node.printAll_append_statement _ _ (BlockHead.isComment_node ..),
        BlockHead.print_node, BlockHead.print_node]
    · rw [← hs.text h, hb, outerText_cons]
      simp only [text, closed]
      rw [Node.printAll_append_statement _ _ (BlockHead.isComment_node ..),
        BlockHead.print_node]
      simp [OpenBlock.text, Token.text, Bracket.closing]

/-- What a reader holds at the end of a reading is what it held before and the tokens. -/
theorem text_of_run {ts : List Token} {r r' : Reader} (h : r.Faithful)
    (hread : ∀ t ∈ ts, t.IsRead) (hrun : r.run ts = .ok r') :
    r'.Faithful ∧ r'.text = r.text ++ Token.textOf ts := by
  have hkept := induction
    (P := fun us r₁ => r₁.Faithful ∧ (∀ t ∈ us, t.IsRead) ∧
      r₁.text ++ Token.textOf us = r.text ++ Token.textOf ts)
    (fun _ _ _ hp => ⟨⟨hp.1.complete, hp.1.colon, hp.1.started⟩, hp.2⟩)
    (fun t us r₁ r₂ hp hm => by
      obtain ⟨hf, ht, htext⟩ := hp
      obtain ⟨hf', htext'⟩ := hm.faithful hf (ht t List.mem_cons_self)
      refine ⟨hf', fun u hu => ht u (List.mem_cons_of_mem _ hu), ?_⟩
      rw [htext', List.append_assoc, ← Token.textOf_cons, htext])
    ⟨h, hread, rfl⟩ hrun
  exact ⟨hkept.1, by simpa using hkept.2.2⟩

end Reader

namespace Sheet

/-- What the reader makes of all tokens of a text is written as that text. -/
theorem print_of_run {s : Text} {r : Reader} {sheet : Sheet}
    (hrun : Reader.run {} (Token.ofText s) = .ok r) (hfinish : r.finish = .ok sheet) :
    sheet.print = s := by
  obtain ⟨hf, htext⟩ := Reader.text_of_run (r := {}) ⟨rfl, nofun, nofun⟩
    (fun t ht => Token.isRead_of_mem_ofText ht) hrun
  obtain ⟨r', hs, hb, rfl⟩ := Reader.settles_of_finish hfinish
  have hend := hs.text hf
  rw [htext, Token.textOf_ofText, hb] at hend
  simpa [print, Reader.text, Reader.outerText, Node.printAll] using hend

/-- Reading loses nothing: a text that is a stylesheet is written back character for
character. -/
theorem print_of_parse {s : Text} {sheet : Sheet} (h : parse s = .ok sheet) :
    sheet.print = s := by
  obtain ⟨r, hrun, hfinish⟩ := run_of_parse h
  exact print_of_run hrun hfinish

/-- A string with a semicolon in it, a stray semicolon, a comment, an escaped semicolon and
a bracket that is never closed. -/
theorem print_of_parse_unclosed :
    parse "a\x7bb:\"x;\";;\x7d/*c*/d:\\;(e".toList =
        .ok ⟨[.rule ⟨[], ['a'], []⟩
              [.declaration ⟨[], ['b'], [':'], "\"x;\"".toList, []⟩] ⟨[';'], true⟩,
            .comment ⟨[], ['c']⟩,
            .declaration ⟨[], ['d'], [':'], "\\;(e".toList, []⟩], ⟨[], false⟩⟩ ∧
      print ⟨[.rule ⟨[], ['a'], []⟩
              [.declaration ⟨[], ['b'], [':'], "\"x;\"".toList, []⟩] ⟨[';'], true⟩,
            .comment ⟨[], ['c']⟩,
            .declaration ⟨[], ['d'], [':'], "\\;(e".toList, []⟩], ⟨[], false⟩⟩ =
        "a\x7bb:\"x;\";;\x7d/*c*/d:\\;(e".toList := by
  have h : parse "a\x7bb:\"x;\";;\x7d/*c*/d:\\;(e".toList =
      .ok ⟨[.rule ⟨[], ['a'], []⟩
            [.declaration ⟨[], ['b'], [':'], "\"x;\"".toList, []⟩] ⟨[';'], true⟩,
          .comment ⟨[], ['c']⟩,
          .declaration ⟨[], ['d'], [':'], "\\;(e".toList, []⟩], ⟨[], false⟩⟩ :=
    parse_of_toOption (by decide +kernel)
  exact ⟨h, print_of_parse h⟩

end Sheet

end HostSheet
