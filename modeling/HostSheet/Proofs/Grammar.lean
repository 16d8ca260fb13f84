import Mathlib
import HostSheet.Proofs.Gaps

set_option autoImplicit false

/-!
# The grammar of stylesheets

`Spells` says, without a reader, which tokens are which list of nodes: a list is its gaps,
comments, statements with their semicolons and blocks, and at its end there may be one
statement without a semicolon.  A statement is what `Draft.take?` makes of its tokens.

The reader and the grammar agree.  Tokens that spell a list are read as that list
(`Spells.run`), and whatever is read is spelled by its tokens (`Sheet.spells_of_parse`).
So a text can be shown to be a stylesheet by spelling it, node by node.
-/

namespace HostSheet

open Syntax

/-! ## Gaps and statements -/

namespace Syntax.Token

/-- The tokens of a gap. -/
def ofGap (g : Text) : List Token := g.map fun c => if c = ';' then semicolon else blank c

@[simp] theorem ofGap_nil : ofGap [] = [] := rfl

theorem ofGap_append (g h : Text) : ofGap (g ++ h) = ofGap g ++ ofGap h := by
  simp [ofGap]

@[simp] theorem textOf_ofGap (g : Text) : textOf (ofGap g) = g := by
  induction g with
  | nil => rfl
  | cons c g ih =>
    have hc : (if c = ';' then semicolon else blank c).text = [c] := by
      by_cases h : c = ';'
      · rw [if_pos h, h]
        rfl
      · rw [if_neg h]
        rfl
    rw [ofGap, List.map_cons, textOf_cons, hc]
    exact congrArg (c :: ·) ih

end Syntax.Token

namespace Draft

/-- The statement after more tokens, if all of them leave it open. -/
def feed (d : Draft) (ts : List Token) : Option Draft := ts.foldlM take? d

@[simp] theorem feed_nil (d : Draft) : d.feed [] = some d := rfl

theorem feed_cons (d : Draft) (t : Token) (ts : List Token) :
    d.feed (t :: ts) = (d.take? t).bind (·.feed ts) := rfl

theorem feed_append (d : Draft) (ts us : List Token) :
    d.feed (ts ++ us) = (d.feed ts).bind (·.feed us) := by
  simp only [feed, List.foldlM_append]
  rfl

/-- The statement, started elsewhere. -/
def startedAt (n : Nat) (d : Draft) : Draft := { d with offset := n }

/-- The statement behind another gap. -/
def withGap (gap : Text) (d : Draft) : Draft := { d with gap := gap }

theorem addColon_startedAt (n : Nat) (d : Draft) :
    (d.startedAt n).addColon = d.addColon.startedAt n := by
  obtain ⟨offset, name, reversed, gap, colon, brackets⟩ := d
  cases colon <;> rfl

/-- Where a statement starts does not matter for what it takes. -/
theorem take?_startedAt (n : Nat) (d : Draft) (t : Token) :
    (d.startedAt n).take? t = (d.take? t).map (startedAt n) := by
  unfold take?
  by_cases hb : d.brackets = []
  case neg =>
    rw [if_pos (show (d.startedAt n).brackets ≠ [] from hb), if_pos hb]
    rfl
  rw [if_neg (not_not_intro (show (d.startedAt n).brackets = [] from hb)),
    if_neg (not_not_intro hb)]
  cases t with
  | atName name =>
    dsimp only
    by_cases hf : d.isFresh = true
    · rw [if_pos hf, if_pos (show (d.startedAt n).isFresh = true from hf)]
      rfl
    · rw [if_neg hf, if_neg (show ¬(d.startedAt n).isFresh = true from hf)]
      rfl
  | quoted raw =>
    dsimp only
    by_cases hc : closesString raw = true
    · rw [if_pos hc, if_pos hc]
      rfl
    · rw [if_neg hc, if_neg hc]
      rfl
  | colon =>
    dsimp only
    rw [addColon_startedAt]
    rfl
  | comment body isClosed => cases isClosed <;> rfl
  | opener name b => cases b <;> rfl
  | closer b => cases b <;> rfl
  | blank c => rfl
  | semicolon => rfl
  | other raw => rfl

theorem feed_startedAt (n : Nat) (d : Draft) (ts : List Token) :
    (d.startedAt n).feed ts = (d.feed ts).map (startedAt n) := by
  induction ts generalizing d with
  | nil => rfl
  | cons t ts ih =>
    rw [feed_cons, feed_cons, take?_startedAt]
    cases d.take? t with
    | none => rfl
    | some d' => exact ih d'

theorem node_startedAt {n : Nat} {d : Draft} {before after : Text} {m : Node} :
    (d.startedAt n).node before after = .ok m ↔ d.node before after = .ok m := by
  unfold node startedAt
  dsimp only
  cases d.name with
  | some name => exact Iff.rfl
  | none =>
    cases d.colon with
    | some k => exact Iff.rfl
    | none => exact ⟨nofun, nofun⟩

/-- Blanks that come outside brackets are kept back. -/
theorem feed_ofGap {d : Draft} {gap : Text} (hb : d.brackets = []) (hgap : IsGap gap) :
    d.feed (Token.ofGap gap) = some (d.withGap (d.gap ++ gap)) := by
  induction gap generalizing d with
  | nil => simp [withGap]
  | cons c gap ih =>
    have hc : c ≠ ';' := by
      rintro rfl
      have := hgap ';' List.mem_cons_self
      cases this
    have htake : d.take? (.blank c) = some (d.withGap (d.gap ++ [c])) := by
      unfold take?
      rw [if_neg (not_not_intro hb)]
      rfl
    have hnext : (d.withGap (d.gap ++ [c])).brackets = [] := hb
    rw [Token.ofGap, List.map_cons, if_neg hc, feed_cons, htake]
    refine (ih hnext fun a ha => hgap a (List.mem_cons_of_mem _ ha)).trans ?_
    simp [withGap]

end Draft

/-- The tokens `us` are the statement `d`, up to its last token that is no blank. -/
structure Statement (us : List Token) (d : Draft) : Prop where
  starts : ∃ t ts, us = t :: ts ∧ t.startsStatement = true
  feed : Draft.feed { offset := 0 } us = some d
  gap : d.gap = []

/-! ## Lists of nodes -/

/-- The tokens are a list of nodes with its ending.  The first flag says whether the list
is in a block.  The second says whether the last statement before the list has its
semicolon; a list without statements leaves that as it is. -/
inductive Spells : Bool → Bool → List Token → List Node → Ending → Prop
  /-- The end of the list, behind a semicolon, a block or the start. -/
  | nil {inBlock terminated : Bool} {gap : Text} (hgap : IsLoose gap) :
      Spells inBlock terminated (Token.ofGap gap) [] ⟨gap, terminated⟩
  /-- The end of the list behind a statement without a semicolon.  At the end of the text
  its brackets need not be closed. -/
  | last {inBlock terminated : Bool} {before gap : Text} {us : List Token} {d : Draft}
      {n : Node} (hbefore : IsLoose before) (hs : Statement us d)
      (hn : d.node before [] = .ok n) (hgap : IsGap gap)
      (hb : d.brackets = [] ∨ inBlock = false ∧ gap = []) :
      Spells inBlock terminated (Token.ofGap before ++ us ++ Token.ofGap gap) [n] ⟨gap, false⟩
  | comment {inBlock terminated : Bool} {before body : Text} {ts : List Token}
      {ns : List Node} {e : Ending} (hbefore : IsLoose before)
      (h : Spells inBlock terminated ts ns e) :
      Spells inBlock terminated (Token.ofGap before ++ .comment body true :: ts)
        (.comment ⟨before, body⟩ :: ns) e
  | statement {inBlock terminated : Bool} {before gap : Text} {us ts : List Token}
      {d : Draft} {n : Node} {ns : List Node} {e : Ending} (hbefore : IsLoose before)
      (hs : Statement us d) (hb : d.brackets = []) (hgap : IsGap gap)
      (hn : d.node before gap = .ok n) (h : Spells inBlock true ts ns e) :
      Spells inBlock terminated
        (Token.ofGap before ++ us ++ Token.ofGap gap ++ .semicolon :: ts) (n :: ns) e
  | block {inBlock terminated : Bool} {before gap : Text} {us inner ts : List Token}
      {d : Draft} {head : BlockHead} {nodes ns : List Node} {ending e : Ending}
      (hbefore : IsLoose before) (hs : Statement us d) (hb : d.brackets = [])
      (hgap : IsGap gap) (hh : (d.withGap gap).blockHead? before = some head)
      (hinner : Spells true false inner nodes ending) (h : Spells inBlock false ts ns e) :
      Spells inBlock terminated
        (Token.ofGap before ++ us ++ Token.ofGap gap ++ .opener [] .curly ::
          (inner ++ .closer .curly :: ts)) (head.node nodes ending :: ns) e

namespace Reader

/-! ## What is spelled is read

The offset of a reader only matters for faults.  Each lemma says that it is some number
afterwards, and leaves open which. -/

theorem run_append_of_run {r r₁ : Reader} {ts us : List Token} (h : r.run ts = .ok r₁) :
    r.run (ts ++ us) = r₁.run us := by
  rw [run_append, h]
  rfl

theorem run_cons_of_move {r r₁ : Reader} {t : Token} (h : r.Move t r₁) (ts : List Token) :
    ∃ k, r.run (t :: ts) = { r₁ with offset := k }.run ts := by
  refine ⟨r.offset + t.text.length, ?_⟩
  rw [run_cons, step_of_move h]
  rfl

/-- Between nodes a gap joins the gap before it. -/
theorem run_ofGap_append {r : Reader} (hd : r.draft = none) (g : Text) (ts : List Token) :
    ∃ k, r.run (Token.ofGap g ++ ts) =
      { r with before := r.before ++ g, offset := k }.run ts := by
  induction g generalizing r with
  | nil => exact ⟨r.offset, by simp⟩
  | cons c g ih =>
    have hmove : r.Move (if c = ';' then .semicolon else .blank c)
        { r with before := r.before ++ [c] } := by
      by_cases hc : c = ';'
      · rw [if_pos hc, hc]
        exact .stray hd
      · rw [if_neg hc]
        exact .blank c hd
    obtain ⟨k, hk⟩ := run_cons_of_move hmove (Token.ofGap g ++ ts)
    obtain ⟨k', hk'⟩ := ih (r := { r with before := r.before ++ [c], offset := k }) hd
    refine ⟨k', hk.trans (hk'.trans ?_)⟩
    simp

/-- A statement that is open takes tokens. -/
theorem run_append_of_feed {r : Reader} {d d' : Draft} {us : List Token}
    (hd : r.draft = some d) (h : d.feed us = some d') (ts : List Token) :
    ∃ k, r.run (us ++ ts) = { r with draft := some d', offset := k }.run ts := by
  induction us generalizing r d with
  | nil =>
    rw [Draft.feed_nil] at h
    cases h
    exact ⟨r.offset, by rw [← hd]; rfl⟩
  | cons u us ih =>
    rw [Draft.feed_cons] at h
    cases hu : d.take? u with
    | none => rw [hu] at h; cases h
    | some d₁ =>
      rw [hu] at h
      have hmove : r.Move u { r with draft := some d₁ } :=
        .take (fun hn => by rw [hd] at hn; cases hn) (by rw [statement_of_draft hd, hu])
      obtain ⟨k, hk⟩ := run_cons_of_move hmove (us ++ ts)
      obtain ⟨k', hk'⟩ := ih (r := { r with draft := some d₁, offset := k }) rfl h
      exact ⟨k', hk.trans hk'⟩

/-- Where no statement is open, the tokens of one open it. -/
theorem run_append_of_statement {r : Reader} {us : List Token} {d : Draft}
    (hd : r.draft = none) (hs : Statement us d) (ts : List Token) :
    ∃ m k, r.run (us ++ ts) =
      { r with draft := some (d.startedAt m), offset := k }.run ts := by
  obtain ⟨u, us, rfl, hstarts⟩ := hs.starts
  have hfeed : Draft.feed { offset := r.offset } (u :: us) = some (d.startedAt r.offset) := by
    have := Draft.feed_startedAt r.offset { offset := 0 } (u :: us)
    rw [hs.feed] at this
    exact this
  rw [Draft.feed_cons] at hfeed
  cases hu : Draft.take? { offset := r.offset } u with
  | none => rw [hu] at hfeed; cases hfeed
  | some d₁ =>
    rw [hu] at hfeed
    have hmove : r.Move u { r with draft := some d₁ } :=
      .take (fun _ => hstarts) (by rw [statement_of_draft_eq_none hd, hu])
    obtain ⟨k, hk⟩ := run_cons_of_move hmove (us ++ ts)
    obtain ⟨k', hk'⟩ :=
      run_append_of_feed (r := { r with draft := some d₁, offset := k }) rfl hfeed ts
    exact ⟨r.offset, k', hk.trans hk'⟩

/-- A statement with the gaps on its sides. -/
theorem run_append_of_statement_between {r : Reader} (before : Text) {gap : Text}
    {us : List Token} {d : Draft} (hd : r.draft = none) (hs : Statement us d) (hgap : IsGap gap)
    (hb : d.brackets = [] ∨ gap = []) (ts : List Token) :
    ∃ m k, r.run (Token.ofGap before ++ us ++ Token.ofGap gap ++ ts) = { r with
      before := r.before ++ before,
      draft := some ((d.withGap gap).startedAt m), offset := k }.run ts := by
  obtain ⟨k, hk⟩ := run_ofGap_append hd before (us ++ (Token.ofGap gap ++ ts))
  obtain ⟨m, k', hk'⟩ := run_append_of_statement
    (r := { r with before := r.before ++ before, offset := k }) hd hs (Token.ofGap gap ++ ts)
  have hfeed : (d.startedAt m).feed (Token.ofGap gap) =
      some ((d.withGap gap).startedAt m) := by
    rcases hb with hb | rfl
    · rw [Draft.feed_startedAt, Draft.feed_ofGap hb hgap, hs.gap]
      rfl
    · rw [Token.ofGap_nil, Draft.feed_nil, Draft.withGap, ← hs.gap]
  obtain ⟨k'', hk''⟩ := run_append_of_feed (r := { r with
    before := r.before ++ before, draft := some (d.startedAt m), offset := k' }) rfl hfeed ts
  refine ⟨m, k'', ?_⟩
  rw [List.append_assoc, List.append_assoc]
  exact hk.trans (hk'.trans hk'')

end Reader

/-- The reader reads the nodes of a list from the tokens that spell it.  A statement at the
end of the list may still be open. -/
theorem Spells.run {inBlock terminated : Bool} {ts : List Token} {ns : List Node}
    {e : Ending} (h : Spells inBlock terminated ts ns e) {r : Reader} (hd : r.draft = none)
    (hbefore : r.before = []) (hterminated : r.level.terminated = terminated) :
    ∃ r₁ r₂, r.run ts = .ok r₁ ∧ r₁.Settles r₂ ∧ r₂.blocks = r.blocks ∧
      r₂.level = ⟨r.level.nodes ++ ns, e.terminated⟩ ∧ r₂.before = e.after ∧
      (inBlock = true → ∀ d, r₁.draft = some d → d.brackets = []) := by
  induction h generalizing r with
  | @nil inBlock terminated gap hgap =>
    obtain ⟨k, hk⟩ := Reader.run_ofGap_append hd gap []
    rw [List.append_nil, Reader.run_nil, hbefore, List.nil_append] at hk
    refine ⟨_, _, hk, .none hd, rfl, ?_, rfl, ?_⟩
    · rw [List.append_nil, ← hterminated]
    · intro _ d hdraft
      change r.draft = some d at hdraft
      rw [hd] at hdraft
      cases hdraft
  | @last inBlock terminated before gap us d n hb₀ hs hn hgap hb =>
    obtain ⟨m, k, hk⟩ := Reader.run_append_of_statement_between before hd hs hgap
      (hb.imp_right And.right) []
    rw [List.append_nil, Reader.run_nil, hbefore, List.nil_append] at hk
    refine ⟨_, _, hk, .some rfl (Draft.node_startedAt.2 hn), rfl, rfl, rfl, ?_⟩
    intro hin d' hd'
    obtain rfl := Option.some.inj hd'
    rcases hb with hb | ⟨hout, _⟩
    · exact hb
    · rw [hin] at hout
      cases hout
  | @comment inBlock terminated before body ts ns e hb₀ _ ih =>
    obtain ⟨k, hk⟩ := Reader.run_ofGap_append hd before (.comment body true :: ts)
    rw [hbefore, List.nil_append] at hk
    obtain ⟨k', hk'⟩ := Reader.run_cons_of_move (r := { r with before := before, offset := k })
      (.comment body hd) ts
    obtain ⟨r₁, r₂, hrun, hs, hblocks, hlevel, hrest⟩ :=
      ih (r := { r.push (.comment ⟨before, body⟩) with offset := k' }) rfl rfl hterminated
    refine ⟨r₁, r₂, hk.trans (hk'.trans hrun), hs, hblocks, ?_, hrest⟩
    rw [hlevel]
    simp [Reader.push, Level.push]
  | @statement inBlock terminated before gap us ts d n ns e hb₀ hs hb hgap hn _ ih =>
    obtain ⟨m, k, hk⟩ := Reader.run_append_of_statement_between before hd hs hgap
      (.inl hb) (.semicolon :: ts)
    rw [hbefore, List.nil_append] at hk
    obtain ⟨k', hk'⟩ := Reader.run_cons_of_move (r := { r with
      before := before, draft := some ((d.withGap gap).startedAt m), offset := k })
      (.terminate rfl hb (Draft.node_startedAt.2 hn)) ts
    obtain ⟨r₁, r₂, hrun, hs, hblocks, hlevel, hrest⟩ :=
      ih (r := { r.push n with
        level := { (r.push n).level with terminated := true }, offset := k' }) rfl rfl rfl
    refine ⟨r₁, r₂, hk.trans (hk'.trans hrun), hs, hblocks, ?_, hrest⟩
    rw [hlevel]
    simp [Reader.push, Level.push]
  | @block inBlock terminated before gap us inner ts d head nodes ns ending e hb₀ hs hb hgap hh
      _ _ ihinner ih =>
    obtain ⟨m, k, hk⟩ := Reader.run_append_of_statement_between before hd hs hgap
      (.inl hb) (.opener [] .curly :: (inner ++ .closer .curly :: ts))
    rw [hbefore, List.nil_append] at hk
    obtain ⟨k', hk'⟩ := Reader.run_cons_of_move (r := { r with
      before := before, draft := some ((d.withGap gap).startedAt m), offset := k })
      (.enter rfl hb hh) (inner ++ .closer .curly :: ts)
    obtain ⟨r₁, r₂, hrun, hs, hblocks, hlevel, hafter, hopen⟩ :=
      ihinner (r := { r with
        blocks := ⟨head, k, r.level⟩ :: r.blocks, level := {}, before := [], draft := none,
        offset := k' }) rfl rfl rfl
    obtain ⟨k'', hk''⟩ := Reader.run_cons_of_move (.close hs (hopen rfl) hblocks) ts
    obtain ⟨r₃, r₄, hrun', hs', hblocks', hlevel', hrest⟩ :=
      ih (r := { r₂.closed ⟨head, k, r.level⟩ r.blocks with offset := k'' }) rfl rfl rfl
    refine ⟨r₃, r₄, ?_, hs', hblocks', ?_, hrest⟩
    · refine hk.trans (hk'.trans ?_)
      exact (Reader.run_append_of_run hrun).trans (hk''.trans hrun')
    · rw [hlevel']
      simp [Reader.closed, hlevel, hafter]

/-! ## What is read is spelled -/

namespace Level

/-- The tokens of a list so far: in front of tokens that spell the rest of the list, they
spell all of it. -/
def IsSpelled (inBlock : Bool) (l : Level) (ts : List Token) : Prop :=
  ∀ {us : List Token} {ns : List Node} {e : Ending},
    Spells inBlock l.terminated us ns e → Spells inBlock false (ts ++ us) (l.nodes ++ ns) e

namespace IsSpelled

variable {inBlock : Bool} {l : Level} {ts us inner : List Token} {before gap : Text} {d : Draft}

theorem nil : IsSpelled inBlock {} [] := fun hrest => hrest

/-- A comment is added. -/
theorem comment (h : l.IsSpelled inBlock ts) (hbefore : IsLoose before) (body : Text) :
    (l.push (.comment ⟨before, body⟩)).IsSpelled inBlock
      (ts ++ (Token.ofGap before ++ [.comment body true])) := by
  intro vs ns e hrest
  have hspells := h (@Spells.comment _ _ _ body _ _ _ hbefore hrest)
  simpa [push] using hspells

/-- A statement is added with its semicolon. -/
theorem statement (h : l.IsSpelled inBlock ts) {n : Node} (hbefore : IsLoose before)
    (hs : Statement us d) (hb : d.brackets = []) (hgap : IsGap gap)
    (hn : d.node before gap = .ok n) :
    ({ l.push n with terminated := true } : Level).IsSpelled inBlock
      (ts ++ (Token.ofGap before ++ (us ++ Token.ofGap gap) ++ [.semicolon])) := by
  intro vs ns e hrest
  have hspells := h (.statement hbefore hs hb hgap hn hrest)
  simpa [push] using hspells

/-- A block is added with the list in it. -/
theorem block (h : l.IsSpelled inBlock ts) {head : BlockHead} {nodes : List Node}
    {ending : Ending} (hbefore : IsLoose before) (hs : Statement us d) (hb : d.brackets = [])
    (hgap : IsGap gap) (hh : (d.withGap gap).blockHead? before = some head)
    (hinner : Spells true false inner nodes ending) :
    ({ l.push (head.node nodes ending) with terminated := false } : Level).IsSpelled inBlock
      (ts ++ (Token.ofGap before ++ us ++ Token.ofGap gap ++ .opener [] .curly ::
        (inner ++ [.closer .curly]))) := by
  intro vs ns e hrest
  have hspells := h (.block hbefore hs hb hgap hh hinner hrest)
  simpa [push] using hspells

end IsSpelled

end Level

namespace Draft

/-- The tokens of a statement so far, the gap behind it included. -/
def IsSpelled (d : Draft) (ts : List Token) : Prop :=
  ∃ us, Statement us ((d.withGap []).startedAt 0) ∧ IsGap d.gap ∧
    (d.brackets = [] ∨ d.gap = []) ∧ ts = us ++ Token.ofGap d.gap

/-- A token is kept back as a blank, or nothing is kept back any more. -/
theorem Takes.gap_eq {d d' : Draft} {t : Token} (h : d.Takes t d')
    (hfresh : d.isFresh = true → d.gap = []) :
    (∃ c, t = .blank c ∧ d.brackets = [] ∧ d' = d.withGap (d.gap ++ [c])) ∨ d'.gap = [] := by
  cases h with
  | blank c hb => exact .inl ⟨c, rfl, hb, rfl⟩
  | name name hb hf => exact .inr (hfresh hf)
  | colon hb =>
    unfold addColon
    split
    · exact .inr rfl
    · exact .inr rfl
  | add t brackets => exact .inr rfl

/-- The first token of a statement spells it. -/
theorem isSpelled_of_take?_fresh {n : Nat} {d : Draft} {t : Token}
    (hs : t.startsStatement = true) (h : Draft.take? { offset := n } t = some d) :
    d.IsSpelled [t] := by
  have hgap : d.gap = [] := by
    rcases (takes_of_take? h).gap_eq (fun _ => rfl) with ⟨c, rfl, _⟩ | hgap
    · cases hs
    · exact hgap
  have hsame : (d.withGap []).startedAt 0 = d.startedAt 0 := by
    rw [withGap, ← hgap]
  refine ⟨[t], ⟨⟨t, [], rfl, hs⟩, ?_, rfl⟩, by rw [hgap]; exact isGap_nil, .inr hgap, by
    rw [hgap]; rfl⟩
  have hstart := take?_startedAt 0 { offset := n } t
  rw [h] at hstart
  rw [feed_cons, hsame]
  exact (congrArg (Option.bind · (feed · [])) hstart)

/-- A statement that takes one more token. -/
theorem IsSpelled.take? {d d' : Draft} {t : Token} {ts : List Token} (h : d.IsSpelled ts)
    (ht : t.IsRead) (hstarted : d.isFresh = false) (htake : d.take? t = some d') :
    d'.IsSpelled (ts ++ [t]) := by
  obtain ⟨us, hs, hgap, hb, rfl⟩ := h
  rcases (takes_of_take? htake).gap_eq (by rw [hstarted]; nofun) with
    ⟨c, rfl, hbrackets, rfl⟩ | hgap'
  · have hc : c ≠ ';' := by
      rintro rfl
      cases ht.isBlank
    refine ⟨us, hs, hgap.append ?_, .inl hbrackets, ?_⟩
    · intro a ha
      obtain rfl := List.mem_singleton.1 ha
      exact ht.isBlank
    · rw [withGap, Token.ofGap_append, List.append_assoc]
      simp [Token.ofGap, hc]
  · have hsame : (d'.withGap []).startedAt 0 = d'.startedAt 0 := by
      rw [withGap, ← hgap']
    have hblanks : ((d.withGap []).startedAt 0).feed (Token.ofGap d.gap) =
        some (d.startedAt 0) := by
      rcases hb with hb | hb
      · exact feed_ofGap hb hgap
      · rw [hb, Token.ofGap_nil, feed_nil, withGap, ← hb]
    refine ⟨us ++ Token.ofGap d.gap ++ [t], ⟨?_, ?_, rfl⟩, ?_, .inr hgap', ?_⟩
    · obtain ⟨u, us', rfl, hu⟩ := hs.starts
      exact ⟨u, us' ++ Token.ofGap d.gap ++ [t], by simp, hu⟩
    · rw [feed_append, feed_append, hs.feed, Option.bind_some, hblanks, Option.bind_some,
        feed_cons, take?_startedAt, htake, hsame]
      rfl
    · rw [hgap']
      exact isGap_nil
    · rw [hgap', Token.ofGap_nil, List.append_nil]

end Draft

namespace Reader

/-- The tokens of the open blocks, with the nodes in front of them, the outermost first. -/
def OuterSpelled : List OpenBlock → List Token → Prop
  | [], ts => ts = []
  | b :: blocks, ts => ∃ ts₀ outer before us d gap, OuterSpelled blocks ts₀ ∧
      b.outer.IsSpelled (!blocks.isEmpty) outer ∧ IsLoose before ∧ Statement us d ∧
      d.brackets = [] ∧ IsGap gap ∧ (d.withGap gap).blockHead? before = some b.head ∧
      ts = ts₀ ++ outer ++
        (Token.ofGap before ++ us ++ Token.ofGap gap ++ [.opener [] .curly])

/-- The tokens that a reader has read. -/
structure IsSpelled (r : Reader) (outer level before draft : List Token) : Prop where
  outer : OuterSpelled r.blocks outer
  level : r.level.IsSpelled (!r.blocks.isEmpty) level
  loose : IsLoose r.before
  before : before = Token.ofGap r.before
  started : ∀ d, r.draft = some d → d.IsSpelled draft ∧ d.isFresh = false
  idle : r.draft = none → draft = []

/-- The tokens of a list that is completed spell it. -/
theorem Settles.spells {r r' : Reader} {outer level before draft : List Token}
    (h : r.IsSpelled outer level before draft) (hs : r.Settles r')
    (hb : r.blocks ≠ [] → ∀ d : Draft, r.draft = Option.some d → d.brackets = []) :
    Spells (!r.blocks.isEmpty) false (level ++ (before ++ draft)) r'.level.nodes
      ⟨r'.before, r'.level.terminated⟩ := by
  cases hs with
  | none hd =>
    rw [h.idle hd, h.before, List.append_nil]
    have := h.level (.nil h.loose)
    rwa [List.append_nil] at this
  | @some d n hd hn =>
    obtain ⟨⟨us, hs, hgap, hopen, rfl⟩, _⟩ := h.started d hd
    have hn' : ((d.withGap []).startedAt 0).node r.before [] = .ok n :=
      Draft.node_startedAt.2 hn
    rw [h.before, ← List.append_assoc (Token.ofGap r.before)]
    refine h.level (.last h.loose hs hn' hgap ?_)
    by_cases hblocks : r.blocks = []
    · exact hopen.imp_right fun hgap => ⟨by rw [hblocks]; rfl, hgap⟩
    · exact .inl (hb hblocks d hd)

/-- Between nodes one more character joins the gap. -/
theorem IsSpelled.join {r : Reader} {outer level before draft : List Token} {c : Char}
    (h : r.IsSpelled outer level before draft) (hd : r.draft = none) (hc : IsLoose [c]) :
    IsSpelled { r with before := r.before ++ [c] } outer level (before ++ Token.ofGap [c]) [] := by
  refine ⟨h.outer, h.level, h.loose.append hc, ?_, fun d hd' => ?_, fun _ => rfl⟩
  · rw [h.before, Token.ofGap_append]
  · change r.draft = some d at hd'
    rw [hd] at hd'
    cases hd'

/-- Behind a node that is complete a reader has read the blocks and the nodes only. -/
theorem IsSpelled.between {r : Reader} {outer level : List Token}
    (houter : OuterSpelled r.blocks outer) (hlevel : r.level.IsSpelled (!r.blocks.isEmpty) level)
    (hbefore : r.before = []) (hd : r.draft = none) : r.IsSpelled outer level [] [] := by
  refine ⟨houter, hlevel, ?_, ?_, fun d hd' => ?_, fun _ => rfl⟩
  · rw [hbefore]
    exact isLoose_nil
  · rw [hbefore, Token.ofGap_nil]
  · rw [hd] at hd'
    cases hd'

/-- A statement that is open, or opened, takes one more token. -/
theorem IsSpelled.take {r : Reader} {outer level before draft : List Token} {t : Token}
    {d : Draft} (h : r.IsSpelled outer level before draft) (ht : t.IsRead)
    (hs : r.draft = none → t.startsStatement = true) (htake : r.statement.take? t = some d) :
    IsSpelled { r with draft := some d } outer level before (draft ++ [t]) := by
  refine ⟨h.outer, h.level, h.loose, h.before, ?_, by rintro ⟨⟩⟩
  intro d' hd'
  obtain rfl := Option.some.inj hd'
  cases hd : r.draft with
  | none =>
    rw [statement_of_draft_eq_none hd] at htake
    rw [h.idle hd]
    exact ⟨Draft.isSpelled_of_take?_fresh (hs hd) htake,
      (Draft.takes_of_take? htake).isFresh ht.text_ne_nil fun _ => hs hd⟩
  | some d₀ =>
    rw [statement_of_draft hd] at htake
    obtain ⟨hspelled, hstarted⟩ := h.started d₀ hd
    refine ⟨hspelled.take? ht hstarted htake,
      (Draft.takes_of_take? htake).isFresh ht.text_ne_nil ?_⟩
    rw [hstarted]
    rintro ⟨⟩

/-- A reader that takes a token has read one token more. -/
theorem Move.isSpelled {r r' : Reader} {t : Token} {outer level before draft : List Token}
    (hm : r.Move t r') (ht : t.IsRead) (h : r.IsSpelled outer level before draft) :
    ∃ outer' level' before' draft', r'.IsSpelled outer' level' before' draft' ∧
      outer' ++ (level' ++ (before' ++ draft')) =
        outer ++ (level ++ (before ++ draft)) ++ [t] := by
  cases hm with
  | blank c hd =>
    have hc : IsLoose [c] := fun a ha => List.mem_singleton.1 ha ▸ .inl ht.isBlank
    have hgap : Token.ofGap [c] = [.blank c] := by
      have hne : c ≠ ';' := by
        rintro rfl
        cases ht.isBlank
      simp [Token.ofGap, hne]
    exact ⟨_, _, _, _, h.join hd hc, by simp [h.idle hd, hgap]⟩
  | stray hd =>
    have hc : IsLoose [';'] := fun a ha => .inr (List.mem_singleton.1 ha)
    have hgap : Token.ofGap [';'] = [.semicolon] := rfl
    exact ⟨_, _, _, _, h.join hd hc, by simp [h.idle hd, hgap]⟩
  | comment body hd =>
    refine ⟨_, _, [], [], .between h.outer
      (Level.IsSpelled.comment h.level h.loose body) rfl rfl, ?_⟩
    simp [h.idle hd, h.before]
  | take hs htake => exact ⟨_, _, _, _, h.take ht hs htake, by simp⟩
  | @terminate d n hd hb hn =>
    obtain ⟨⟨us, hs, hgap, _, rfl⟩, _⟩ := h.started d hd
    have hn' : ((d.withGap []).startedAt 0).node r.before d.gap = .ok n :=
      Draft.node_startedAt.2 hn
    refine ⟨_, _, [], [], .between h.outer
      (Level.IsSpelled.statement h.level h.loose hs hb hgap hn') rfl rfl, ?_⟩
    simp [h.before]
  | @enter name d head hd hb hh =>
    obtain ⟨⟨us, hs, hgap, _, rfl⟩, _⟩ := h.started d hd
    obtain rfl := ht.opener_curly
    refine ⟨outer ++ level ++ (before ++ us ++ Token.ofGap d.gap ++ [.opener [] .curly]), [],
      [], [], .between ?_ Level.IsSpelled.nil rfl rfl, by simp⟩
    exact ⟨outer, level, r.before, us, (d.withGap []).startedAt 0, d.gap, h.outer, h.level,
      h.loose, hs, hb, hgap, hh, by rw [h.before]⟩
  | @close r₁ b blocks hs hb hbs =>
    have hblocks : r.blocks = b :: blocks := hs.blocks_eq ▸ hbs
    have hinner := hs.spells h fun _ => hb
    have houter := h.outer
    rw [hblocks] at houter hinner
    obtain ⟨ts₀, ts₁, before₁, us, d, gap, h₀, h₁, hloose₁, hs₁, hb₁, hgap, hh, rfl⟩ := houter
    refine ⟨_, _, [], [], .between h₀
      (Level.IsSpelled.block h₁ hloose₁ hs₁ hb₁ hgap hh hinner) rfl rfl, ?_⟩
    simp

/-- What was read of a text from its start. -/
theorem isSpelled_of_run {ts : List Token} {r : Reader} (hread : ∀ t ∈ ts, t.IsRead)
    (h : Reader.run {} ts = .ok r) :
    ∃ outer level before draft, r.IsSpelled outer level before draft ∧
      outer ++ (level ++ (before ++ draft)) = ts := by
  have hstart : ({} : Reader).IsSpelled [] [] [] [] :=
    .between rfl Level.IsSpelled.nil rfl rfl
  have hkept := induction
    (P := fun us r => (∀ t ∈ us, t.IsRead) ∧ ∃ outer level before draft,
      r.IsSpelled outer level before draft ∧
        outer ++ (level ++ (before ++ draft)) ++ us = ts)
    (fun _ _ _ ⟨hread, outer, level, before, draft, hr, hts⟩ => ⟨hread, outer, level, before,
      draft, ⟨hr.outer, hr.level, hr.loose, hr.before, hr.started, hr.idle⟩, hts⟩)
    (fun t us r r' ⟨hread, outer, level, before, draft, hr, hts⟩ hm => by
      obtain ⟨outer', level', before', draft', hr', htokens⟩ :=
        hm.isSpelled (hread t List.mem_cons_self) hr
      refine ⟨fun u hu => hread u (List.mem_cons_of_mem _ hu), outer', level', before', draft',
        hr', ?_⟩
      rw [htokens, List.append_assoc, ← hts]
      rfl)
    ⟨hread, [], [], [], [], hstart, rfl⟩ h
  obtain ⟨_, outer, level, before, draft, hr, hts⟩ := hkept
  exact ⟨outer, level, before, draft, hr, by rw [← hts, List.append_nil]⟩

end Reader

namespace Sheet

/-- A stylesheet that was parsed is spelled by the tokens of its text. -/
theorem spells_of_parse {css : Text} {s : Sheet} (h : parse css = .ok s) :
    Spells false false (Token.ofText css) s.nodes s.ending := by
  obtain ⟨r, hrun, hfinish⟩ := run_of_parse h
  obtain ⟨outer, level, before, draft, hr, hts⟩ :=
    Reader.isSpelled_of_run (fun t ht => Token.isRead_of_mem_ofText ht) hrun
  obtain ⟨r', hs, hb, rfl⟩ := Reader.settles_of_finish hfinish
  rw [hs.blocks_eq] at hb
  have hspells := hs.spells hr fun hne => absurd hb hne
  have houter : outer = [] := by
    have := hr.outer
    rwa [hb] at this
  rw [hb] at hspells
  rw [houter, List.nil_append] at hts
  rw [← hts]
  exact hspells

/-- A text whose tokens spell a stylesheet is parsed as that stylesheet. -/
theorem parse_of_spells {css : Text} {s : Sheet}
    (h : Spells false false (Token.ofText css) s.nodes s.ending) : parse css = .ok s := by
  obtain ⟨r₁, r₂, hrun, hs, hblocks, hlevel, hbefore, _⟩ := h.run (r := {}) rfl rfl rfl
  have hfinish := Reader.finish_of_settles hs hblocks
  rw [hlevel, hbefore] at hfinish
  exact parse_of_run hrun hfinish

end Sheet

end HostSheet
