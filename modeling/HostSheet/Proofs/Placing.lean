import Mathlib
import HostSheet.Proofs.Seams
import HostSheet.Proofs.Respacing

set_option autoImplicit false

/-!
# Nodes in another place

What spells a list of nodes goes on doing so when the list is put elsewhere.  A blank in front
of it joins the gap of its first node (`Spells.behind`), and can be taken away again
(`Spells.of_blank`).  A list from the top of a text may stand in a block if there is a gap at
its end (`Spells.enclosed`): a bracket that is open at the end of a text leaves no gap behind
it, but it would swallow the end of the block.

What stands in front of a block is told apart from the block (`SpellsHead`), so that one head
can be put in front of any block (`Spells.of_head`, `Spells.exists_head`).
-/

namespace HostSheet

open Syntax

/-! ## Gaps in front -/

namespace Node

@[simp] theorem withBefore_withBefore (gap gap' : Text) (n : Node) :
    (n.withBefore gap).withBefore gap' = n.withBefore gap' := by cases n <;> rfl

/-- The nodes, with one more gap in front of the first. -/
def behind (gap : Text) : List Node → List Node
  | [] => []
  | n :: ns => n.withBefore (gap ++ n.before) :: ns

/-- The end of the nodes, with one more gap in front of them: it goes to the end if there is no
node. -/
def endingBehind (gap : Text) : List Node → Ending → Ending
  | [], e => { e with after := gap ++ e.after }
  | _ :: _, e => e

/-- A gap in front of nodes can be taken away again. -/
theorem behind_inj {gap : Text} {ns ms : List Node} {e e' : Ending}
    (h : behind gap ns = behind gap ms) (he : endingBehind gap ns e = endingBehind gap ms e') :
    ns = ms ∧ e = e' := by
  cases ns with
  | nil =>
    cases ms with
    | nil =>
      obtain ⟨after, terminated⟩ := e
      obtain ⟨after', terminated'⟩ := e'
      obtain ⟨hafter, rfl⟩ := Ending.mk.inj he
      obtain rfl : after = after' := List.append_cancel_left hafter
      exact ⟨rfl, rfl⟩
    | cons m ms => cases h
  | cons n ns =>
    cases ms with
    | nil => cases h
    | cons m ms =>
      obtain ⟨hfirst, rfl⟩ := List.cons.inj h
      have hbefore := congrArg before hfirst
      rw [before_withBefore, before_withBefore] at hbefore
      have hnode := congrArg (withBefore n.before) hfirst
      rw [withBefore_withBefore, withBefore_withBefore, withBefore_before,
        List.append_cancel_left hbefore, withBefore_before] at hnode
      exact ⟨by rw [hnode], he⟩

end Node

namespace BlockHead

/-- The head of a block behind another gap. -/
def withBefore (gap : Text) : BlockHead → BlockHead
  | rule head => .rule { head with before := gap }
  | atRule head => .atRule { head with before := gap }

theorem node_withBefore (gap : Text) (head : BlockHead) (ns : List Node) (e : Ending) :
    (head.withBefore gap).node ns e = (head.node ns e).withBefore gap := by
  cases head <;> rfl

end BlockHead

namespace Draft

/-- The node of a statement behind another gap. -/
theorem node_withBefore {d : Draft} {before after : Text} {n : Node}
    (h : d.node before after = .ok n) (gap : Text) :
    d.node gap after = .ok (n.withBefore gap) := by
  rcases node_cases h with ⟨name, hname, rfl⟩ | ⟨k, hname, hk, rfl⟩
  · rw [node, hname]
    rfl
  · rw [node, hname, hk]
    rfl

theorem blockHead?_withBefore {d : Draft} {before : Text} {head : BlockHead}
    (h : d.blockHead? before = some head) (gap : Text) :
    d.blockHead? gap = some (head.withBefore gap) := by
  unfold blockHead? at h ⊢
  split at h
  · cases h
    rfl
  · split at h
    · cases h
    · rename_i hreversed
      cases h
      exact if_neg hreversed

theorem before_of_blockHead? {d : Draft} {before : Text} {head : BlockHead}
    (h : d.blockHead? before = some head) (ns : List Node) (e : Ending) :
    (head.node ns e).before = before := by
  rcases blockHead_cases h with ⟨name, _, rfl⟩ | ⟨_, rfl⟩
  · rfl
  · rfl

end Draft

/-- A list of nodes behind a gap. -/
theorem Spells.behind {inBlock terminated : Bool} {ts : List Token} {ns : List Node} {e : Ending}
    (h : Spells inBlock terminated ts ns e) {gap : Text} (hgap : IsLoose gap) :
    Spells inBlock terminated (Token.ofGap gap ++ ts) (Node.behind gap ns)
      (Node.endingBehind gap ns e) := by
  cases h with
  | @nil _ _ gap' hgap' =>
    rw [← Token.ofGap_append]
    exact .nil (hgap.append hgap')
  | @last _ _ before gap' us d n hbefore hs hn hgap' hb =>
    have hn' := Draft.node_withBefore hn (gap ++ before)
    rw [Node.behind, Draft.before_of_node hn, ← List.append_assoc, ← List.append_assoc,
      ← Token.ofGap_append]
    exact .last (hgap.append hbefore) hs hn' hgap' hb
  | @comment _ _ before body ts ns e hbefore h =>
    rw [← List.append_assoc, ← Token.ofGap_append]
    exact .comment (hgap.append hbefore) h
  | @statement _ _ before gap' us ts d n ns e hbefore hs hb hgap' hn h =>
    have hn' := Draft.node_withBefore hn (gap ++ before)
    rw [Node.behind, Draft.before_of_node hn, ← List.append_assoc, ← List.append_assoc,
      ← List.append_assoc, ← Token.ofGap_append]
    exact .statement (hgap.append hbefore) hs hb hgap' hn' h
  | @block _ _ before gap' us inner ts d head nodes ns ending e hbefore hs hb hgap' hh hinner h =>
    have hh' := Draft.blockHead?_withBefore hh (gap ++ before)
    rw [Node.behind, Draft.before_of_blockHead? hh, ← BlockHead.node_withBefore,
      ← List.append_assoc, ← List.append_assoc, ← List.append_assoc, ← Token.ofGap_append]
    exact .block (hgap.append hbefore) hs hb hgap' hh' hinner h

theorem Node.behind_withBefore {n : Node} {gap before : Text} (h : n.before = gap ++ before)
    (ns : List Node) : Node.behind gap (n.withBefore before :: ns) = n :: ns := by
  rw [Node.behind, Node.before_withBefore, Node.withBefore_withBefore, ← h, Node.withBefore_before]

/-- A list of nodes behind a blank is the list with the blank taken away, put behind it. -/
theorem Spells.of_blank {inBlock terminated : Bool} {c : Char} {ts us : List Token}
    {ms : List Node} {e' : Ending} (h : Spells inBlock terminated us ms e')
    (hus : us = .blank c :: ts) :
    ∃ ns e, Spells inBlock terminated ts ns e ∧ ms = Node.behind [c] ns ∧
      e' = Node.endingBehind [c] ns e := by
  -- A statement starts with no blank, so the blank is the first one of the gap in front.
  have hgap : ∀ {before : Text} {vs : List Token}, IsLoose before →
      (∀ ws, vs ≠ .blank c :: ws) → Token.ofGap before ++ vs = .blank c :: ts →
      ∃ before', before = c :: before' ∧ IsLoose before' ∧ ts = Token.ofGap before' ++ vs := by
    intro before vs hbefore hvs heq
    cases before with
    | nil => exact absurd heq (hvs ts)
    | cons a before =>
      obtain ⟨ha, hrest⟩ := List.cons.inj heq
      refine ⟨before, ?_, fun x hx => hbefore x (List.mem_cons_of_mem _ hx), hrest.symm⟩
      dsimp only at ha
      split at ha
      · cases ha
      · cases ha
        rfl
  have hstarts : ∀ {us vs : List Token} {d : Draft}, Statement us d →
      ∀ ws, us ++ vs ≠ .blank c :: ws := by
    intro us vs d hs ws heq
    obtain ⟨t, us', rfl, ht⟩ := hs.starts
    obtain ⟨rfl, _⟩ := List.cons.inj heq
    cases ht
  cases h with
  | @nil _ _ gap hloose =>
    rw [← List.append_nil (Token.ofGap gap)] at hus
    obtain ⟨gap', rfl, hloose', rfl⟩ := hgap hloose (fun _ h => by cases h) hus
    rw [List.append_nil]
    exact ⟨[], _, .nil hloose', rfl, rfl⟩
  | @last _ _ before gap us d n hbefore hs hn hg hb =>
    rw [List.append_assoc] at hus
    obtain ⟨before', rfl, hbefore', rfl⟩ := hgap hbefore (hstarts hs) hus
    have hn' := Draft.node_withBefore hn before'
    rw [← List.append_assoc]
    exact ⟨_, _, .last hbefore' hs hn' hg hb,
      (Node.behind_withBefore (Draft.before_of_node hn) _).symm, rfl⟩
  | @comment _ _ before body us ns e hbefore h =>
    obtain ⟨before', rfl, hbefore', rfl⟩ := hgap hbefore (fun _ h => by cases h) hus
    exact ⟨_, _, .comment hbefore' h, rfl, rfl⟩
  | @statement _ _ before gap us vs d n ns e hbefore hs hb hg hn h =>
    rw [List.append_assoc, List.append_assoc] at hus
    obtain ⟨before', rfl, hbefore', rfl⟩ := hgap hbefore (hstarts hs) hus
    have hn' := Draft.node_withBefore hn before'
    rw [← List.append_assoc, ← List.append_assoc]
    exact ⟨_, _, .statement hbefore' hs hb hg hn' h,
      (Node.behind_withBefore (Draft.before_of_node hn) _).symm, rfl⟩
  | @block _ _ before gap us inner vs d head nodes ns ending e hbefore hs hb hg hh hinner h =>
    rw [List.append_assoc, List.append_assoc] at hus
    obtain ⟨before', rfl, hbefore', rfl⟩ := hgap hbefore (hstarts hs) hus
    have hh' := Draft.blockHead?_withBefore hh before'
    rw [← List.append_assoc, ← List.append_assoc]
    refine ⟨_, _, .block hbefore' hs hb hg hh' hinner h, ?_, rfl⟩
    rw [BlockHead.node_withBefore]
    exact (Node.behind_withBefore (Draft.before_of_blockHead? hh nodes ending) _).symm

/-! ## In a block and outside -/

namespace Spells

variable {inBlock terminated : Bool} {ts : List Token} {ns : List Node} {e : Ending}

/-- A list from the top of a text may stand in a block, if there is a gap behind it. -/
theorem enclosed (h : Spells inBlock terminated ts ns e) (hgap : e.after ≠ []) :
    Spells true terminated ts ns e := by
  induction h with
  | nil hloose => exact .nil hloose
  | last hbefore hs hn hgap' hb =>
    exact .last hbefore hs hn hgap' (.inl (hb.resolve_right fun h => hgap h.2))
  | comment hbefore h ih => exact .comment hbefore (ih hgap)
  | statement hbefore hs hb hgap' hn h ih => exact .statement hbefore hs hb hgap' hn (ih hgap)
  | block hbefore hs hb hgap' hh hinner h _ ih =>
    exact .block hbefore hs hb hgap' hh hinner (ih hgap)

/-- A list from a block may stand at the top of a text. -/
theorem exposed (h : Spells inBlock terminated ts ns e) (hin : inBlock = true) :
    Spells false terminated ts ns e := by
  induction h with
  | nil hloose => exact .nil hloose
  | last hbefore hs hn hgap hb =>
    exact .last hbefore hs hn hgap (hb.imp_right fun h => ⟨rfl, h.2⟩)
  | comment hbefore h ih => exact .comment hbefore (ih hin)
  | statement hbefore hs hb hgap hn h ih => exact .statement hbefore hs hb hgap hn (ih hin)
  | block hbefore hs hb hgap hh hinner h _ ih =>
    exact .block hbefore hs hb hgap hh hinner (ih hin)

/-- The gap at the end of a list is spelled last. -/
theorem exists_append_gap (h : Spells inBlock terminated ts ns e) :
    ∃ us, ts = us ++ Token.ofGap e.after := by
  induction h with
  | nil => exact ⟨[], rfl⟩
  | last => exact ⟨_, rfl⟩
  | comment hbefore h ih =>
    obtain ⟨us, rfl⟩ := ih
    exact ⟨_, (List.append_assoc _ (_ :: us) _).symm⟩
  | statement hbefore hs hb hgap hn h ih =>
    obtain ⟨us, rfl⟩ := ih
    exact ⟨_, (List.append_assoc _ (_ :: us) _).symm⟩
  | @block _ _ before gap vs inner _ _ _ _ _ _ _ hbefore hs hb hgap hh hinner h _ ih =>
    obtain ⟨us, rfl⟩ := ih
    refine ⟨Token.ofGap before ++ vs ++ Token.ofGap gap ++
      .opener [] .curly :: (inner ++ .closer .curly :: us), ?_⟩
    simp only [List.append_assoc, List.cons_append]

end Spells

/-! ## Round brackets -/

namespace Syntax.Token

theorem shut_of_forall {us : List Token} (h : ∀ name, opener name .round ∉ us) : Shut us := by
  rintro us₁ name us₂ rfl
  exact absurd (List.mem_append_right _ List.mem_cons_self) (h name)

theorem shut_ofGap (g : Text) : Shut (ofGap g) := by
  refine shut_of_forall fun name hmem => ?_
  obtain ⟨c, _, hc⟩ := List.mem_map.1 hmem
  split at hc <;> cases hc

theorem Shut.append {us vs : List Token} (hus : Shut us) (hvs : Shut vs) : Shut (us ++ vs) := by
  induction us with
  | nil => exact hvs
  | cons u us ih =>
    rintro us₁ name us₂ heq hgap
    cases us₁ with
    | nil =>
      obtain ⟨rfl, hrest⟩ := List.cons.inj heq
      rw [← show us ++ vs = us₂ from hrest, textOf_append] at hgap
      exact hus [] name us rfl fun c hc => hgap c (List.mem_append_left _ hc)
    | cons u' us₁ => exact ih hus.tail us₁ name us₂ (List.cons.inj heq).2 hgap

theorem Shut.cons {t : Token} (ht : ∀ name, t ≠ opener name .round) {us : List Token}
    (hus : Shut us) : Shut (t :: us) :=
  (shut_of_forall fun name hmem => ht name (List.mem_singleton.1 hmem).symm :
    Shut [t]).append hus

/-- Tokens with blanks behind them are shut only if they are shut themselves. -/
theorem Shut.of_append_gap {us : List Token} {g : Text} (hg : IsGap g)
    (h : Shut (us ++ ofGap g)) : Shut us := by
  rintro us₁ name us₂ rfl hgap
  refine h us₁ name (us₂ ++ ofGap g) (List.append_assoc _ _ _) ?_
  rw [textOf_append, textOf_ofGap]
  exact hgap.append hg

end Syntax.Token

/-- No bracket is open at the end of a list that stands in a block. -/
theorem Spells.shut {inBlock terminated : Bool} {ts : List Token} {ns : List Node} {e : Ending}
    (h : Spells inBlock terminated ts ns e) (hin : inBlock = true) : Token.Shut ts := by
  induction h with
  | nil => exact Token.shut_ofGap _
  | last hbefore hs hn hgap hb =>
    have hclosed := hb.resolve_right fun h => Bool.noConfusion (hin.symm.trans h.1)
    exact ((Token.shut_ofGap _).append (hs.shut hclosed)).append (Token.shut_ofGap _)
  | comment hbefore h ih => exact (Token.shut_ofGap _).append ((ih hin).cons fun _ h => by cases h)
  | statement hbefore hs hb hgap hn h ih =>
    exact (((Token.shut_ofGap _).append (hs.shut hb)).append (Token.shut_ofGap _)).append
      ((ih hin).cons fun _ h => by cases h)
  | block hbefore hs hb hgap hh hinner h ihinner ih =>
    exact (((Token.shut_ofGap _).append (hs.shut hb)).append (Token.shut_ofGap _)).append
      (((ihinner rfl).append ((ih hin).cons fun _ h => by cases h)).cons fun _ h => by cases h)

/-- A list in a block that ends with a blank: the brace that closes the block does not change
its tokens. -/
theorem Spells.ofText_append_closer {terminated : Bool} {ts : List Token} {ns : List Node}
    {e : Ending} (h : Spells true terminated ts ns e) {gap : Text} {c : Char}
    (hc : isBlank c = true) (hafter : e.after = gap ++ [c]) (w : Text) :
    Token.ofText (w ++ ['\x7d']) = ts ++ [.closer .curly] ↔ Token.ofText w = ts := by
  obtain ⟨us, rfl⟩ := h.exists_append_gap
  have hgap : IsGap [c] := fun a ha => by rwa [List.mem_singleton.1 ha]
  have hshut := h.shut rfl
  rw [hafter, Token.ofGap_append, ← List.append_assoc] at hshut ⊢
  generalize us ++ Token.ofGap gap = vs at hshut ⊢
  have hblank : ∀ v, Token.ofText (c :: v) = Token.ofGap [c] ++ Token.ofText v :=
    fun v => Token.ofText_gap_append hgap.isLoose v
  have hlast := hblank []
  have hcloser := hblank ['\x7d']
  have hnil : Token.ofText [] = [] := by rw [Token.ofText]
  rw [hnil, List.append_nil] at hlast
  rw [Token.ofText_closer_curly, hnil] at hcloser
  constructor
  · intro heq
    have htext := congrArg Token.textOf heq
    rw [Token.textOf_ofText, Token.textOf_append] at htext
    have hw := List.append_cancel_right htext
    rw [Token.textOf_append, Token.textOf_ofGap] at hw
    have hparted : Token.Parted vs [c, '\x7d'] := by
      rw [Token.Parted, hcloser, ← List.append_assoc, ← heq, hw, List.append_assoc]
      rfl
    have h' := hparted.replace (isSeam_of_isBlank hc) (hshut.of_append_gap hgap) []
    rw [Token.Parted, hlast, ← hw] at h'
    exact h'
  · intro heq
    have htext := congrArg Token.textOf heq
    rw [Token.textOf_ofText, Token.textOf_append, Token.textOf_ofGap] at htext
    have hparted : Token.Parted vs [c] := by
      rw [Token.Parted, hlast, ← heq, htext]
    have h' := hparted.replace (isSeam_of_isBlank hc) (hshut.of_append_gap hgap) ['\x7d']
    rw [Token.Parted, hcloser] at h'
    rw [htext, List.append_assoc, List.append_assoc]
    exact h'

/-! ## Heads of blocks -/

/-- The tokens in front of a block, with the gap in front of them. -/
def SpellsHead (ts : List Token) (head : BlockHead) : Prop :=
  ∃ before us d gap, IsLoose before ∧ Statement us d ∧ d.brackets = [] ∧ IsGap gap ∧
    (d.withGap gap).blockHead? before = some head ∧
    ts = Token.ofGap before ++ us ++ Token.ofGap gap

namespace SpellsHead

variable {ts : List Token} {head : BlockHead}

theorem shut (h : SpellsHead ts head) : Token.Shut ts := by
  obtain ⟨before, us, d, gap, _, hs, hb, _, _, rfl⟩ := h
  exact ((Token.shut_ofGap _).append (hs.shut hb)).append (Token.shut_ofGap _)

/-- The characters of a head are those it is written with. -/
theorem textOf_eq (h : SpellsHead ts head) (hread : ∀ t ∈ ts, t.IsRead) :
    Token.textOf ts = head.print := by
  obtain ⟨before, us, d, gap, _, hs, _, _, hh, rfl⟩ := h
  have hread' : ∀ t ∈ us, t.IsRead := fun t ht =>
    hread t (List.mem_append_left _ (List.mem_append_right _ ht))
  have htext : (d.withGap gap).text = Token.textOf us ++ gap := by
    rw [← hs.text hread', Draft.text, Draft.text, hs.gap, List.append_nil]
    rfl
  rw [Draft.print_blockHead hh, htext, Token.textOf_append, Token.textOf_append,
    Token.textOf_ofGap, Token.textOf_ofGap, List.append_assoc]

/-- A head in front of a block, and the nodes behind the block. -/
theorem block (hhead : SpellsHead ts head) {inBlock terminated : Bool} {inner vs : List Token}
    {nodes ns : List Node} {ending e : Ending} (hinner : Spells true false inner nodes ending)
    (h : Spells inBlock false vs ns e) :
    Spells inBlock terminated (ts ++ .opener [] .curly :: (inner ++ .closer .curly :: vs))
      (head.node nodes ending :: ns) e := by
  obtain ⟨before, us, d, gap, hbefore, hs, hb, hgap, hh, rfl⟩ := hhead
  exact .block hbefore hs hb hgap hh hinner h

end SpellsHead

theorem BlockHead.node_inj {head head' : BlockHead} {ns ns' : List Node} {e e' : Ending}
    (h : head.node ns e = head'.node ns' e') : head = head' ∧ ns = ns' ∧ e = e' := by
  cases head <;> cases head' <;> cases h <;> exact ⟨rfl, rfl, rfl⟩

/-- What spells one block is a head and what spells the nodes of the block. -/
theorem Spells.exists_head {inBlock terminated : Bool} {ts : List Token} {ns nodes : List Node}
    {e ending : Ending} {head : BlockHead} (h : Spells inBlock terminated ts ns e)
    (hns : ns = [head.node nodes ending]) (hafter : e.after = []) :
    ∃ hs inner, SpellsHead hs head ∧ Spells true false inner nodes ending ∧
      ts = hs ++ .opener [] .curly :: (inner ++ [.closer .curly]) := by
  have hblock : (head.node nodes ending).children? = some nodes := by cases head <;> rfl
  cases h with
  | nil => cases hns
  | last hbefore hs hn hgap hb =>
    rw [← (List.cons.inj hns).1, Draft.children?_of_node hn] at hblock
    cases hblock
  | comment hbefore h =>
    rw [← (List.cons.inj hns).1] at hblock
    cases hblock
  | statement hbefore hs hb hgap hn h =>
    rw [← (List.cons.inj hns).1, Draft.children?_of_node hn] at hblock
    cases hblock
  | block hbefore hs hb hgap hh hinner h =>
    obtain ⟨hnode, rfl⟩ := List.cons.inj hns
    obtain ⟨rfl, rfl, rfl⟩ := BlockHead.node_inj hnode
    cases h with
    | nil hloose =>
      dsimp only at hafter
      subst hafter
      exact ⟨_, _, ⟨_, _, _, _, hbefore, hs, hb, hgap, hh, rfl⟩, hinner, rfl⟩

/-- In front of any block, the characters of the head are read as the head. -/
def BlockHead.Stands (head : BlockHead) : Prop :=
  ∃ hs, SpellsHead hs head ∧ ∀ v, Token.Parted hs ('\x7b' :: v)

/-- A text of one block is read as its head and its nodes. -/
theorem Sheet.parse_block_iff {head : BlockHead} {w : Text} {ns : List Node} {e : Ending} :
    parse (head.print ++ '\x7b' :: (w ++ ['\x7d'])) = .ok ⟨[head.node ns e], {}⟩ ↔
      head.Stands ∧
        ∃ ts, Token.ofText (w ++ ['\x7d']) = ts ++ [.closer .curly] ∧
          Spells true false ts ns e := by
  constructor
  · intro h
    obtain ⟨hs, inner, hhead, hinner, heq⟩ := (spells_of_parse h).exists_head rfl rfl
    have hread : ∀ t ∈ hs, t.IsRead := fun t ht =>
      Token.isRead_of_mem_ofText (heq ▸ List.mem_append_left _ ht)
    have hrest : Token.Parted (hs ++ .opener [] .curly :: (inner ++ [.closer .curly])) [] := by
      rw [← heq]
      exact Token.parted_ofText _
    have htext := congrArg Token.textOf heq
    rw [Token.textOf_ofText, Token.textOf_append, hhead.textOf_eq hread] at htext
    have hw : w ++ ['\x7d'] = Token.textOf (inner ++ [.closer .curly]) :=
      (List.cons.inj (List.append_cancel_left htext)).2
    obtain ⟨hparted, _⟩ := Token.parted_append_iff.1 hrest
    have hinside := hrest.tail.ofText_textOf
    rw [← hw] at hinside
    rw [List.append_nil] at hparted
    refine ⟨⟨hs, hhead, fun v => ?_⟩, inner, hinside, hinner⟩
    exact Token.Parted.replace rfl hhead.shut hparted v
  · rintro ⟨⟨hs, hhead, hparted⟩, ts, htokens, hinner⟩
    have hread : ∀ t ∈ hs, t.IsRead := fun t ht => (hparted []).isRead ht
    refine parse_of_spells ?_
    rw [← hhead.textOf_eq hread, hparted, Token.ofText_opener_curly, htokens]
    exact hhead.block hinner (.nil isLoose_nil)

end HostSheet
