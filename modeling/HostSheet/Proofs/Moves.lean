import Mathlib
import HostSheet.Sheet.Parse

set_option autoImplicit false

/-!
# What one token does to the reader

The reader decides by the token and by the statement it is in the middle of.  Everything
it can do is listed here once, as a relation between readers: a token joins a gap, is a
node of its own, goes into the statement, or ends it in one of three ways.  What holds of
every reading is then proved by cases on `Reader.Move`, one case for each way, and by
`Reader.induction` over the tokens.
-/

namespace HostSheet

open Syntax

/-! ## Tokens and statements -/

namespace Syntax.Token

/-- Whether a token starts a statement where none is open. -/
def startsStatement : Token → Bool
  | blank _ | semicolon | comment _ _ | closer .curly => false
  | _ => true

end Syntax.Token

namespace Draft

/-- The statement after one more token, if the token leaves it open. -/
def take? (d : Draft) (t : Token) : Option Draft :=
  if d.brackets ≠ [] then
    some { d.add t with brackets := bracketsAfter d.brackets t }
  else
    match t with
    | .blank c => some { d with gap := d.gap ++ [c] }
    | .semicolon | .opener _ .curly | .closer .curly | .comment _ false => none
    | .atName name => some (if d.isFresh then { d with name := some name } else d.add t)
    | .colon => some d.addColon
    | .quoted raw => if closesString raw then some (d.add t) else none
    | t => some { d.add t with brackets := bracketsAfter [] t }

/-- What a token that leaves a statement open does to it. -/
inductive Takes (d : Draft) : Token → Draft → Prop
  /-- A blank outside brackets is kept back. -/
  | blank (c : Char) (hb : d.brackets = []) :
      Takes d (.blank c) { d with gap := d.gap ++ [c] }
  /-- A name in first place makes an at-rule. -/
  | name (name : Text) (hb : d.brackets = []) (hf : d.isFresh = true) :
      Takes d (.atName name) { d with name := some name }
  | colon (hb : d.brackets = []) : Takes d .colon d.addColon
  /-- Any other token goes to the content, behind the blanks that were kept back. -/
  | add (t : Token) (brackets : List Bracket) :
      Takes d t { d.add t with brackets := brackets }

theorem takes_of_take? {d d' : Draft} {t : Token} (h : d.take? t = some d') :
    d.Takes t d' := by
  unfold take? at h
  by_cases hb : d.brackets = []
  case neg =>
    rw [if_pos hb] at h
    cases h
    exact .add t _
  rw [if_neg (not_not_intro hb)] at h
  cases t with
  | blank c => cases h; exact .blank c hb
  | semicolon => cases h
  | colon => cases h; exact .colon hb
  | atName name =>
    dsimp only at h
    by_cases hf : d.isFresh = true
    · rw [if_pos hf] at h
      cases h
      exact .name name hb hf
    · rw [if_neg hf] at h
      cases h
      exact .add _ d.brackets
  | quoted raw =>
    dsimp only at h
    by_cases hc : closesString raw = true
    · rw [if_pos hc] at h
      cases h
      exact .add _ d.brackets
    · rw [if_neg hc] at h
      cases h
  | comment body isClosed =>
    cases isClosed with
    | true => cases h; exact .add _ _
    | false => cases h
  | opener name b =>
    cases b with
    | curly => cases h
    | round => cases h; exact .add _ _
    | square => cases h; exact .add _ _
  | closer b =>
    cases b with
    | curly => cases h
    | round => cases h; exact .add _ _
    | square => cases h; exact .add _ _
  | other raw => cases h; exact .add _ _

/-- The head of the block that a statement opens, if it can open one. -/
def blockHead? (d : Draft) (before : Text) : Option BlockHead :=
  match d.name with
  | some name => some (.atRule (d.atHead before d.gap name))
  | none => if d.reversed.isEmpty then none else some (.rule ⟨before, d.content, d.gap⟩)

/-- A statement without a block is an at-rule if it has a name, and else a declaration if it
has a colon. -/
theorem node_cases {d : Draft} {before after : Text} {n : Node}
    (h : d.node before after = .ok n) :
    (∃ name, d.name = some name ∧ n = .atStatement (d.atHead before after name) {}) ∨
      ∃ k, d.name = none ∧ d.colon = some k ∧
        n = .declaration (d.declaration before after k) := by
  unfold node at h
  split at h
  · rename_i name hname
    exact .inl ⟨name, hname, (Except.ok.inj h).symm⟩
  · rename_i k hname hk
    exact .inr ⟨k, hname, hk, (Except.ok.inj h).symm⟩
  · cases h

/-- A statement with a block is an at-rule if it has a name, and else a style rule if it has
characters. -/
theorem blockHead_cases {d : Draft} {before : Text} {head : BlockHead}
    (h : d.blockHead? before = some head) :
    (∃ name, d.name = some name ∧ head = .atRule (d.atHead before d.gap name)) ∨
      d.name = none ∧ head = .rule ⟨before, d.content, d.gap⟩ := by
  unfold blockHead? at h
  split at h
  · rename_i name hname
    exact .inl ⟨name, hname, (Option.some.inj h).symm⟩
  · rename_i hname
    split at h
    · cases h
    · exact .inr ⟨hname, (Option.some.inj h).symm⟩

theorem isComment_of_node {d : Draft} {before after : Text} {n : Node}
    (h : d.node before after = .ok n) : n.isComment = false := by
  rcases node_cases h with ⟨name, _, rfl⟩ | ⟨k, _, _, rfl⟩
  · rfl
  · rfl

theorem children?_of_node {d : Draft} {before after : Text} {n : Node}
    (h : d.node before after = .ok n) : n.children? = none := by
  rcases node_cases h with ⟨name, _, rfl⟩ | ⟨k, _, _, rfl⟩
  · rfl
  · rfl

theorem before_of_node {d : Draft} {before after : Text} {n : Node}
    (h : d.node before after = .ok n) : n.before = before := by
  rcases node_cases h with ⟨name, _, rfl⟩ | ⟨k, _, _, rfl⟩
  · rfl
  · rfl

end Draft

namespace Reader

/-- The statement the next token would go into. -/
def statement (r : Reader) : Draft := r.draft.getD { offset := r.offset }

theorem statement_of_draft {r : Reader} {d : Draft} (h : r.draft = some d) :
    r.statement = d := by
  rw [statement, h, Option.getD_some]

theorem statement_of_draft_eq_none {r : Reader} (h : r.draft = none) :
    r.statement = { offset := r.offset } := by
  rw [statement, h, Option.getD_none]

/-! ## Ends of a statement -/

/-- The reader `r` with its statement completed at the end of a list; `r` itself if no
statement is open. -/
inductive Settles (r : Reader) : Reader → Prop
  | none (hd : r.draft = none) : Settles r r
  | some {d : Draft} {n : Node} (hd : r.draft = some d)
      (hn : d.node r.before [] = .ok n) :
      Settles r { r.push n with
        level := { (r.push n).level with terminated := false }, before := d.gap }

/-- The reader after the innermost block, whose list it has read to the end, was closed. -/
def closed (r : Reader) (b : OpenBlock) (blocks : List OpenBlock) : Reader :=
  { r with
    blocks := blocks
    level :=
      ⟨b.outer.nodes ++ [b.head.node r.level.nodes ⟨r.before, r.level.terminated⟩], false⟩
    before := []
    draft := none }

theorem leave_eq_ok {r r' : Reader} (h : r.leave = .ok r') :
    ∃ b blocks, r.blocks = b :: blocks ∧ r' = r.closed b blocks := by
  unfold leave at h
  split at h
  · simp [fault] at h
  · rename_i b blocks hb
    exact ⟨b, blocks, hb, (Except.ok.inj h).symm⟩

theorem leave_of_blocks {r : Reader} {b : OpenBlock} {blocks : List OpenBlock}
    (h : r.blocks = b :: blocks) : r.leave = .ok (r.closed b blocks) := by
  unfold leave
  rw [h]
  rfl

theorem terminate_eq_ok {r r' : Reader} {d : Draft} (h : r.terminate d = .ok r') :
    ∃ n, d.node r.before d.gap = .ok n ∧
      r' = { r.push n with level := { (r.push n).level with terminated := true } } := by
  unfold terminate at h
  cases hn : d.node r.before d.gap with
  | error e => rw [hn] at h; cases h
  | ok n => rw [hn] at h; exact ⟨n, rfl, (Except.ok.inj h).symm⟩

theorem terminate_of_node {r : Reader} {d : Draft} {n : Node}
    (h : d.node r.before d.gap = .ok n) :
    r.terminate d =
      .ok { r.push n with level := { (r.push n).level with terminated := true } } := by
  unfold terminate
  rw [h]
  rfl

theorem cutOff_eq_ok {r r' : Reader} {d : Draft} (hd : r.draft = some d)
    (h : r.cutOff d = .ok r') : r.Settles r' := by
  unfold cutOff at h
  cases hn : d.node r.before [] with
  | error e => rw [hn] at h; cases h
  | ok n =>
    rw [hn] at h
    cases h
    exact .some hd hn

theorem cutOff_of_node {r : Reader} {d : Draft} {n : Node} (h : d.node r.before [] = .ok n) :
    r.cutOff d = .ok { r.push n with
      level := { (r.push n).level with terminated := false }, before := d.gap } := by
  unfold cutOff
  rw [h]
  rfl

theorem enter_eq_ok {r r' : Reader} {d : Draft} (h : r.enter d = .ok r') :
    ∃ head, d.blockHead? r.before = some head ∧ r' = enter.into r head := by
  unfold enter at h
  unfold Draft.blockHead?
  cases hname : d.name with
  | some name =>
    rw [hname] at h
    exact ⟨_, rfl, (Except.ok.inj h).symm⟩
  | none =>
    rw [hname] at h
    dsimp only at h ⊢
    by_cases hr : d.reversed.isEmpty = true
    · rw [if_pos hr] at h
      cases h
    · rw [if_neg hr] at h ⊢
      exact ⟨_, rfl, (Except.ok.inj h).symm⟩

theorem enter_of_blockHead? {r : Reader} {d : Draft} {head : BlockHead}
    (h : d.blockHead? r.before = some head) : r.enter d = .ok (enter.into r head) := by
  unfold Draft.blockHead? at h
  unfold enter
  cases hname : d.name with
  | some name =>
    rw [hname] at h
    rw [← Option.some.inj h]
  | none =>
    rw [hname] at h
    by_cases hr : d.reversed.isEmpty = true
    · simp [hr] at h
    · simp only [hr, Bool.false_eq_true, if_false, Option.some.injEq] at h
      simp [hr, ← h]

/-! ## Moves -/

/-- What one token does to a reader that accepts it.  The offset is left where it was. -/
inductive Move (r : Reader) : Token → Reader → Prop
  /-- A blank between nodes. -/
  | blank (c : Char) (hd : r.draft = none) :
      Move r (.blank c) { r with before := r.before ++ [c] }
  /-- A semicolon that ends nothing. -/
  | stray (hd : r.draft = none) :
      Move r .semicolon { r with before := r.before ++ [';'] }
  /-- A comment between nodes. -/
  | comment (body : Text) (hd : r.draft = none) :
      Move r (.comment body true) (r.push (.comment ⟨r.before, body⟩))
  /-- A token of a statement. -/
  | take {t : Token} {d : Draft} (hs : r.draft = none → t.startsStatement = true)
      (ht : r.statement.take? t = some d) : Move r t { r with draft := some d }
  /-- The semicolon of a statement. -/
  | terminate {d : Draft} {n : Node} (hd : r.draft = some d) (hb : d.brackets = [])
      (hn : d.node r.before d.gap = .ok n) :
      Move r .semicolon
        { r.push n with level := { (r.push n).level with terminated := true } }
  /-- The bracket that opens a block. -/
  | enter {name : Text} {d : Draft} {head : BlockHead} (hd : r.draft = some d)
      (hb : d.brackets = []) (hh : d.blockHead? r.before = some head) :
      Move r (.opener name .curly) (enter.into r head)
  /-- The bracket that closes a block. -/
  | close {r' : Reader} {b : OpenBlock} {blocks : List OpenBlock} (hs : r.Settles r')
      (hd : ∀ d, r.draft = some d → d.brackets = []) (hb : r'.blocks = b :: blocks) :
      Move r (.closer .curly) (r'.closed b blocks)

/-- What happens to a token that goes into a statement, open or not. -/
theorem take_or_close_of_extend {r r' : Reader} {d : Draft} {t : Token}
    (h : r.extend d t = .ok r') :
    (∃ d', d.take? t = some d' ∧ r' = { r with draft := some d' }) ∨
      d.brackets = [] ∧
        (t = .semicolon ∧ r.terminate d = .ok r' ∨
          (∃ name, t = .opener name .curly) ∧ r.enter d = .ok r' ∨
          t = .closer .curly ∧ ∃ r₁, r.cutOff d = .ok r₁ ∧ r₁.leave = .ok r') := by
  unfold extend at h
  unfold Draft.take?
  by_cases hb : d.brackets = []
  case neg =>
    rw [if_pos hb] at h ⊢
    exact .inl ⟨_, rfl, (Except.ok.inj h).symm⟩
  rw [if_neg (not_not_intro hb)] at h ⊢
  refine Or.imp_right (fun hclose => ⟨hb, hclose⟩) ?_
  cases t with
  | semicolon => exact .inr (.inl ⟨rfl, h⟩)
  | opener name b =>
    cases b with
    | curly => exact .inr (.inr (.inl ⟨⟨name, rfl⟩, h⟩))
    | round => exact .inl ⟨_, rfl, (Except.ok.inj h).symm⟩
    | square => exact .inl ⟨_, rfl, (Except.ok.inj h).symm⟩
  | closer b =>
    cases b with
    | curly =>
      cases hc : r.cutOff d with
      | error e => rw [hc] at h; cases h
      | ok r₁ =>
        rw [hc] at h
        exact .inr (.inr (.inr ⟨rfl, r₁, rfl, h⟩))
    | round => exact .inl ⟨_, rfl, (Except.ok.inj h).symm⟩
    | square => exact .inl ⟨_, rfl, (Except.ok.inj h).symm⟩
  | comment body isClosed =>
    cases isClosed with
    | true => exact .inl ⟨_, rfl, (Except.ok.inj h).symm⟩
    | false => cases h
  | quoted raw =>
    dsimp only at h ⊢
    by_cases hc : closesString raw = true
    · rw [if_pos hc] at h ⊢
      exact .inl ⟨_, rfl, (Except.ok.inj h).symm⟩
    · rw [if_neg hc] at h
      cases h
  | blank c => exact .inl ⟨_, rfl, (Except.ok.inj h).symm⟩
  | colon => exact .inl ⟨_, rfl, (Except.ok.inj h).symm⟩
  | atName name => exact .inl ⟨_, rfl, (Except.ok.inj h).symm⟩
  | other raw => exact .inl ⟨_, rfl, (Except.ok.inj h).symm⟩

theorem start_of_startsStatement {r : Reader} {t : Token} (hs : t.startsStatement = true) :
    r.start t = r.extend { offset := r.offset } t := by
  cases t with
  | blank c => cases hs
  | semicolon => cases hs
  | comment body isClosed => cases hs
  | closer b =>
    cases b with
    | curly => cases hs
    | round => rfl
    | square => rfl
  | _ => rfl

/-- A token that starts a statement can only go into it. -/
theorem take_of_extend_fresh {r r' : Reader} {t : Token} (hs : t.startsStatement = true)
    (h : r.extend { offset := r.offset } t = .ok r') :
    ∃ d', Draft.take? { offset := r.offset } t = some d' ∧
      r' = { r with draft := some d' } := by
  rcases take_or_close_of_extend h with ht | ⟨_, ⟨rfl, _⟩ | ⟨⟨name, rfl⟩, he⟩ | ⟨rfl, _⟩⟩
  · exact ht
  · cases hs
  · obtain ⟨head, hh, _⟩ := enter_eq_ok he
    cases hh
  · cases hs

/-- Every step is a move, followed by the count of the characters. -/
theorem move_of_step {r r' : Reader} {t : Token} (h : r.step t = .ok r') :
    ∃ r₁, r.Move t r₁ ∧ r' = { r₁ with offset := r.offset + t.text.length } := by
  unfold step at h
  cases hd : r.draft with
  | some d =>
    rw [hd] at h
    cases he : r.extend d t with
    | error e => simp only [he] at h; cases h
    | ok r₁ =>
      simp only [he] at h
      refine ⟨r₁, ?_, (Except.ok.inj h).symm⟩
      rcases take_or_close_of_extend he with
        ⟨d', ht, rfl⟩ | ⟨hb, ⟨rfl, hc⟩ | ⟨⟨name, rfl⟩, hc⟩ | ⟨rfl, r₂, hc, hl⟩⟩
      · exact .take (fun hn => by rw [hd] at hn; cases hn) (by rw [statement_of_draft hd, ht])
      · obtain ⟨n, hn, rfl⟩ := terminate_eq_ok hc
        exact .terminate hd hb hn
      · obtain ⟨head, hh, rfl⟩ := enter_eq_ok hc
        exact .enter hd hb hh
      · obtain ⟨b, blocks, hbs, rfl⟩ := leave_eq_ok hl
        exact .close (cutOff_eq_ok hd hc) (by simp [hd, hb]) hbs
  | none =>
    rw [hd] at h
    cases he : r.start t with
    | error e => simp only [he] at h; cases h
    | ok r₁ =>
      simp only [he] at h
      refine ⟨r₁, ?_, (Except.ok.inj h).symm⟩
      by_cases hs : t.startsStatement = true
      · rw [start_of_startsStatement hs] at he
        obtain ⟨d', ht, rfl⟩ := take_of_extend_fresh hs he
        exact .take (fun _ => hs) (by rw [statement_of_draft_eq_none hd, ht])
      · cases t with
        | blank c => cases he; exact .blank c hd
        | semicolon => cases he; exact .stray hd
        | comment body isClosed =>
          cases isClosed with
          | true => cases he; exact .comment body hd
          | false => cases he
        | closer b =>
          cases b with
          | curly =>
            obtain ⟨b, blocks, hbs, rfl⟩ := leave_eq_ok he
            exact .close (.none hd) (by simp [hd]) hbs
          | round => exact absurd rfl hs
          | square => exact absurd rfl hs
        | _ => exact absurd rfl hs

/-- No statement is open at the end of a list. -/
theorem Settles.draft_eq_none {r r₁ : Reader} (h : r.Settles r₁) : r₁.draft = Option.none := by
  cases h with
  | none hd => exact hd
  | some hd hn => rfl

/-- The end of the text is the end of a list in which no block is open. -/
theorem settles_of_finish {r : Reader} {s : Sheet} (h : r.finish = .ok s) :
    ∃ r₁, r.Settles r₁ ∧ r₁.blocks = [] ∧
      s = ⟨r₁.level.nodes, ⟨r₁.before, r₁.level.terminated⟩⟩ := by
  have hlast : ∀ r₁ : Reader, r.Settles r₁ → r₁.finish = .ok s →
      ∃ r₁, r.Settles r₁ ∧ r₁.blocks = [] ∧
        s = ⟨r₁.level.nodes, ⟨r₁.before, r₁.level.terminated⟩⟩ := by
    intro r₁ hs hm
    unfold finish at hm
    rw [hs.draft_eq_none] at hm
    dsimp only [bind, Except.bind] at hm
    cases hb : r₁.blocks with
    | cons b blocks => rw [hb] at hm; cases hm
    | nil => rw [hb] at hm; exact ⟨r₁, hs, hb, (Except.ok.inj hm).symm⟩
  cases hd : r.draft with
  | none => exact hlast r (.none hd) h
  | some d =>
    unfold finish at h
    rw [hd] at h
    cases hc : r.cutOff d with
    | error e => simp only [hc] at h; cases h
    | ok r₁ =>
      have hs := cutOff_eq_ok hd hc
      refine hlast r₁ hs ?_
      unfold finish
      rw [hs.draft_eq_none]
      simp only [hc] at h
      exact h

/-! ## Steps of a given move -/

/-- A statement that takes a token stays open. -/
theorem extend_of_take? {r : Reader} {d d' : Draft} {t : Token} (h : d.take? t = some d') :
    r.extend d t = .ok { r with draft := some d' } := by
  unfold Draft.take? at h
  unfold extend
  by_cases hb : d.brackets = []
  case neg =>
    rw [if_pos hb] at h ⊢
    rw [Option.some.inj h]
  rw [if_neg (not_not_intro hb)] at h ⊢
  cases t with
  | semicolon => cases h
  | opener name b =>
    cases b with
    | curly => cases h
    | round => cases h; rfl
    | square => cases h; rfl
  | closer b =>
    cases b with
    | curly => cases h
    | round => cases h; rfl
    | square => cases h; rfl
  | comment body isClosed =>
    cases isClosed with
    | true => cases h; rfl
    | false => cases h
  | quoted raw =>
    dsimp only at h ⊢
    by_cases hc : closesString raw = true
    · rw [if_pos hc] at h ⊢
      cases h
      rfl
    · rw [if_neg hc] at h
      cases h
  | blank c => cases h; rfl
  | colon => cases h; rfl
  | atName name => cases h; rfl
  | other raw => cases h; rfl

theorem step_of_draft {r r₁ : Reader} {d : Draft} {t : Token} (hd : r.draft = some d)
    (h : r.extend d t = .ok r₁) :
    r.step t = .ok { r₁ with offset := r.offset + t.text.length } := by
  unfold step
  rw [hd]
  dsimp only
  rw [h]
  rfl

theorem step_of_draft_eq_none {r r₁ : Reader} {t : Token} (hd : r.draft = none)
    (h : r.start t = .ok r₁) :
    r.step t = .ok { r₁ with offset := r.offset + t.text.length } := by
  unfold step
  rw [hd]
  dsimp only
  rw [h]
  rfl

/-- Every move is a step, followed by the count of the characters. -/
theorem step_of_move {r r₁ : Reader} {t : Token} (h : r.Move t r₁) :
    r.step t = .ok { r₁ with offset := r.offset + t.text.length } := by
  cases h with
  | blank c hd => exact step_of_draft_eq_none hd rfl
  | stray hd => exact step_of_draft_eq_none hd rfl
  | comment body hd => exact step_of_draft_eq_none hd rfl
  | @take _ d hs ht =>
    cases hd : r.draft with
    | some d₀ =>
      rw [statement_of_draft hd] at ht
      exact step_of_draft hd (extend_of_take? ht)
    | none =>
      rw [statement_of_draft_eq_none hd] at ht
      refine step_of_draft_eq_none hd ?_
      rw [start_of_startsStatement (hs hd), extend_of_take? ht]
  | @terminate d n hd hb hn =>
    refine step_of_draft hd ?_
    unfold extend
    rw [if_neg (not_not_intro hb)]
    exact terminate_of_node hn
  | @enter name d head hd hb hh =>
    refine step_of_draft hd ?_
    unfold extend
    rw [if_neg (not_not_intro hb)]
    exact enter_of_blockHead? hh
  | @close r' b blocks hs hb hbs =>
    cases hs with
    | none hd => exact step_of_draft_eq_none hd (leave_of_blocks hbs)
    | @some d n hd hn =>
      refine step_of_draft hd ?_
      unfold extend
      rw [if_neg (not_not_intro (hb d hd))]
      dsimp only
      rw [cutOff_of_node hn]
      exact leave_of_blocks hbs

/-- The end of a list in which no block is open is the end of the text. -/
theorem finish_of_settles {r r₁ : Reader} (hs : r.Settles r₁) (hb : r₁.blocks = []) :
    r.finish = .ok ⟨r₁.level.nodes, ⟨r₁.before, r₁.level.terminated⟩⟩ := by
  unfold finish
  cases hs with
  | none hd =>
    rw [hd]
    dsimp only [bind, Except.bind]
    rw [hb]
    rfl
  | @some d n hd hn =>
    rw [hd]
    dsimp only
    rw [cutOff_of_node hn]
    dsimp only [bind, Except.bind] at hb ⊢
    rw [hb]
    rfl

/-! ## Whole readings -/

/-- What every move keeps, and what does not speak of the offset, is kept by a reading. -/
theorem induction {P : List Token → Reader → Prop}
    (hoffset : ∀ ts r n, P ts r → P ts { r with offset := n })
    (hmove : ∀ t ts r r', P (t :: ts) r → r.Move t r' → P ts r') :
    ∀ {ts : List Token} {r r' : Reader}, P ts r → r.run ts = .ok r' → P [] r' := by
  intro ts
  induction ts with
  | nil =>
    intro r r' hp h
    rw [run_nil] at h
    cases h
    exact hp
  | cons t ts ih =>
    intro r r' hp h
    rw [run_cons] at h
    cases hs : r.step t with
    | error e => rw [hs] at h; cases h
    | ok r₁ =>
      rw [hs] at h
      obtain ⟨r₂, hm, rfl⟩ := move_of_step hs
      exact ih (hoffset _ _ _ (hmove t ts r r₂ hp hm)) h

end Reader

namespace Sheet

/-- A sheet that was parsed comes from a reading of all tokens and from its end. -/
theorem run_of_parse {s : Text} {sheet : Sheet} (h : parse s = .ok sheet) :
    ∃ r, Reader.run {} (Token.ofText s) = .ok r ∧ r.finish = .ok sheet := by
  unfold parse read at h
  cases hr : Reader.run {} (Token.ofText s) with
  | error e => rw [hr] at h; cases h
  | ok r =>
    rw [hr] at h
    cases hf : r.finish with
    | error e =>
      have : (Except.mapError (Fault.locate s) (r.finish)) = .ok sheet := h
      rw [hf] at this
      cases this
    | ok t =>
      have : (Except.mapError (Fault.locate s) (r.finish)) = .ok sheet := h
      rw [hf] at this
      exact ⟨r, rfl, by rw [hf, Except.ok.inj this]⟩

/-- Parsing can be evaluated: a result is told from an error by `Except.toOption`. -/
theorem parse_of_toOption {s : Text} {sheet : Sheet}
    (h : (parse s).toOption = some sheet) : parse s = .ok sheet := by
  cases hp : parse s with
  | error e => rw [hp] at h; cases h
  | ok t => rw [hp] at h; rw [Option.some.inj h]

/-- A text whose tokens are read to an end is parsed. -/
theorem parse_of_run {s : Text} {r : Reader} {sheet : Sheet}
    (hr : Reader.run {} (Token.ofText s) = .ok r) (hf : r.finish = .ok sheet) :
    parse s = .ok sheet := by
  have h : read s = .ok sheet := by
    unfold read
    rw [hr]
    exact hf
  unfold parse
  rw [h]
  rfl

end Sheet

end HostSheet
