import Mathlib
import HostSheet.Proofs.Concatenation
import HostSheet.Proofs.LastToken
import HostSheet.Proofs.Layering

set_option autoImplicit false

/-!
# Blanks behind a stylesheet

Blanks behind a stylesheet go to its end, unless the last statement takes them in.  That can
only be a statement without a semicolon and without a blank behind it, and it is decided by
reading this statement alone in front of the blanks (`Sheet.parse_append_gap_iff`).  So a layer
keeps a stylesheet if and only if its last statement is kept in front of a line break
(`Sheet.parse_inLayer_iff`).

In one direction the last statement is cut out of the tokens (`Spells.keepsOut`).  In the other
its tokens are put in place of those that were read without the blanks, and all marks in front of
it end by themselves (`Spells.exists_spells_gap`).

A statement keeps a line break out if it leaves no bracket, address or escape open
(`Sheet.keepsOut_of_endsOpen_eq_false`).  Strings and comments are looked at by the parser: it
refuses an open comment, and a string that it lets pass ends with its line.  So a layer keeps every
stylesheet that leaves nothing open (`Sheet.parse_wrapInLayer_of_endsOpen_eq_false`).
-/

namespace HostSheet

open Syntax

/-! ## The last statement -/

/-- The statement, read alone in front of a gap, takes nothing of the gap in.  Nodes with a block
and comments never do. -/
def Node.KeepsOut (gap : Text) (n : Node) : Prop :=
  ∀ x, n.core? = some x → Sheet.parse (x ++ gap) = .ok ⟨[n.withBefore []], ⟨gap, false⟩⟩

theorem forall_getLast?_cons {p : Node → Prop} {n : Node} {ns : List Node} (hn : ns = [] → p n)
    (hns : ∀ m ∈ ns.getLast?, p m) : ∀ m ∈ (n :: ns).getLast?, p m := by
  cases ns with
  | nil =>
    intro m hm
    obtain rfl := Option.some.inj hm
    exact hn rfl
  | cons n' ns =>
    rw [List.getLast?_cons_cons]
    exact hns

theorem Node.isStatement_of_core? {n : Node} {x : Text} (h : n.core? = some x) :
    n.isStatement = true := by
  cases n with
  | atStatement _ _ => rfl
  | declaration _ => rfl
  | _ => cases h

/-- The last node of a list, if it is a statement without its semicolon. -/
theorem Spells.exists_last {inBlock terminated : Bool} {ts : List Token} {ns : List Node}
    {e : Ending} (h : Spells inBlock terminated ts ns e) (hts : Token.Parted ts [])
    (hopen : e.terminated = false) :
    ∀ n ∈ ns.getLast?, n.isStatement = true → ∃ us d, Statement us d ∧
      d.node n.before [] = .ok n ∧ (d.brackets = [] ∨ e.after = []) ∧ IsGap e.after ∧
        Token.Parted us e.after := by
  induction h with
  | nil hgap => nofun
  | @last _ _ before gap us d m hbefore hs hn hgap hb =>
    intro n hlast _
    obtain rfl : m = n := Option.some.inj hlast
    have hus := (Token.parted_append_iff.1 (Token.parted_append_iff.1 hts).1).2
    rw [Token.textOf_ofGap, List.append_nil] at hus
    rw [Draft.before_of_node hn]
    exact ⟨_, _, hs, hn, hb.imp_right And.right, hgap, hus⟩
  | comment hbefore h ih => exact forall_getLast?_cons (fun _ => nofun) (ih hts.tail hopen)
  | statement hbefore hs hb hgap hn h ih =>
    refine forall_getLast?_cons (fun hnil => ?_) (ih hts.tail hopen)
    cases h with
    | nil hloose => cases hopen
    | _ => cases hnil
  | block hbefore hs hb hgap hh hinner h ihinner ih =>
    refine forall_getLast?_cons (fun _ hstatement => ?_) (ih hts.tail.tail hopen)
    rw [Node.isStatement_node] at hstatement
    cases hstatement

namespace Statement

variable {us : List Token} {d : Draft} {before gap : Text} {n : Node}

/-- A statement that was read in front of a gap keeps the gap out. -/
theorem keepsOut (hs : Statement us d) (hb : d.brackets = []) (h : Token.Parted us gap)
    (hgap : IsGap gap) (hn : d.node before [] = .ok n) : n.KeepsOut gap := by
  intro x hx
  rw [hs.core?_node (fun t ht => h.isRead ht) hn] at hx
  obtain rfl := Option.some.inj hx
  have htokens : Token.ofText (Token.textOf us ++ gap) =
      Token.ofGap [] ++ us ++ Token.ofGap gap := by
    have hblank := (Token.parted_ofGap hgap.isLoose []).ofText_textOf
    rw [Token.textOf_ofGap] at hblank
    rw [Token.ofGap_nil, List.nil_append, h, hblank]
  refine Sheet.parse_of_spells ?_
  rw [htokens]
  exact .last isLoose_nil hs (Draft.node_withBefore hn []) hgap (.inl hb)

/-- A statement that keeps a gap out has tokens that stay apart from the gap. -/
theorem exists_of_keepsOut (hs : Statement us d) (hread : ∀ t ∈ us, t.IsRead)
    (hn : d.node before [] = .ok n) (hne : gap ≠ []) (hkeeps : n.KeepsOut gap) :
    ∃ us' d', Statement us' d' ∧ d'.brackets = [] ∧ Token.Parted us' gap ∧
      Token.textOf us' = Token.textOf us ∧ d'.node before [] = .ok n := by
  obtain rfl := Draft.before_of_node hn
  have hparse := hkeeps _ (hs.core?_node hread hn)
  have hstatement : (n.withBefore []).isStatement = true := by
    rw [Node.isStatement_withBefore, Node.isStatement_of_node hn]
  obtain ⟨us', d', hs', hn', hb', _, hparted⟩ := (Sheet.spells_of_parse hparse).exists_last
    (Token.parted_ofText _) rfl (n.withBefore []) rfl hstatement
  have hself := Draft.node_withBefore hn' n.before
  rw [Node.withBefore_withBefore, Node.withBefore_before] at hself
  have hcore := hs'.core?_node (fun t ht => hparted.isRead ht) hself
  rw [hs.core?_node hread hn] at hcore
  exact ⟨us', d', hs', hb'.resolve_right hne, hparted, (Option.some.inj hcore).symm, hself⟩

end Statement

/-! ## Blanks behind a list of nodes -/

namespace Spells

variable {inBlock terminated : Bool} {ts : List Token} {ns : List Node} {e : Ending} {gap : Text}

/-- Nothing of the gap at the end of a list belongs to its last statement. -/
theorem keepsOut (h : Spells inBlock terminated ts ns e) (hts : Token.Parted ts [])
    (hopen : e.terminated = false) (hne : e.after ≠ []) :
    ∀ n ∈ ns.getLast?, n.KeepsOut e.after := by
  intro n hlast x hx
  obtain ⟨us, d, hs, hn, hb, hgap, hparted⟩ :=
    h.exists_last hts hopen n hlast (Node.isStatement_of_core? hx)
  exact hs.keepsOut (hb.resolve_right hne) hparted hgap hn x hx

/-- Blanks behind a list of nodes go to its end, if its last statement keeps them out. -/
theorem exists_spells_gap (h : Spells inBlock terminated ts ns e) (hts : Token.Parted ts [])
    (hgap : IsGap gap) (hne : gap ≠ [])
    (hlast : e.terminated = false → e.after = [] → ∀ n ∈ ns.getLast?, n.KeepsOut gap) :
    ∃ us, Token.Parted us [] ∧ Token.textOf us = Token.textOf ts ++ gap ∧
      Spells inBlock terminated us ns { e with after := e.after ++ gap } := by
  induction h with
  | @nil _ _ end_ hloose =>
    have hall := hloose.append hgap.isLoose
    exact ⟨_, Token.parted_ofGap hall [], by simp, .nil hall⟩
  | @last _ _ before end_ us d n hbefore hs hn hend hb =>
    obtain ⟨hfront, hback⟩ := Token.parted_append_iff.1 hts
    have hus := (Token.parted_append_iff.1 hfront).2
    rw [Token.textOf_ofGap, List.append_nil] at hus
    have hread : ∀ t ∈ us, t.IsRead := fun t ht => hus.isRead ht
    have happend : ∀ {us' : List Token}, Token.Parted us' (end_ ++ gap) →
        Token.Parted (Token.ofGap before ++ us' ++ Token.ofGap (end_ ++ gap)) [] := by
      intro us' hus'
      refine Token.parted_append_iff.2 ⟨Token.parted_append_iff.2
        ⟨Token.parted_ofGap hbefore _, ?_⟩, Token.parted_ofGap (hend.append hgap).isLoose _⟩
      rwa [Token.textOf_ofGap, List.append_nil]
    cases end_ with
    | nil =>
      obtain ⟨us', d', hs', hb', hparted, htext, hn'⟩ :=
        hs.exists_of_keepsOut hread hn hne (hlast rfl rfl n rfl)
      exact ⟨_, happend hparted, by simp [htext], .last hbefore hs' hn' hgap (.inl hb')⟩
    | cons c end_ =>
      have hc := isSeam_of_isBlank (hend c List.mem_cons_self)
      have hclosed := hb.resolve_right fun h => List.cons_ne_nil _ _ h.2
      exact ⟨_, happend (hus.replace hc (hs.shut hclosed) _), by simp,
        .last hbefore hs hn (hend.append hgap) (.inl hclosed)⟩
  | @comment _ _ before body ts ns e hbefore h ih =>
    obtain ⟨us, hus, htext, hspells⟩ := ih hts.tail fun ht ha n hn =>
      hlast ht ha n (List.mem_getLast?_cons hn)
    exact ⟨_, hts.behind_comment (Token.parted_ofGap hbefore) hus, by simp [htext],
      .comment hbefore hspells⟩
  | statement hbefore hs hb hend hn h ih =>
    obtain ⟨us, hus, htext, hspells⟩ := ih hts.tail fun ht ha n hn =>
      hlast ht ha n (List.mem_getLast?_cons hn)
    exact ⟨_, hs.parted_semicolon hb hts hus, by simp [htext],
      .statement hbefore hs hb hend hn hspells⟩
  | block hbefore hs hb hend hh hinner h ihinner ih =>
    obtain ⟨us, hus, htext, hspells⟩ := ih hts.tail.tail fun ht ha n hn =>
      hlast ht ha n (List.mem_getLast?_cons hn)
    exact ⟨_, hs.parted_block hb hinner hts hus, by simp [htext],
      .block hbefore hs hb hend hh hinner hspells⟩

end Spells

/-! ## Stylesheets -/

namespace Sheet

/-- The stylesheet with a gap behind it. -/
def withGap (gap : Text) (s : Sheet) : Sheet :=
  { s with ending := { s.ending with after := s.ending.after ++ gap } }

/-- What stands at the end of a stylesheet takes nothing of a gap in: the last statement has its
semicolon or a blank behind it, or else it keeps the gap out. -/
def KeepsOut (gap : Text) (s : Sheet) : Prop :=
  s.ending.terminated = false → s.ending.after = [] → ∀ n ∈ s.nodes.getLast?, n.KeepsOut gap

/-- Blanks behind a stylesheet go to its end if and only if its last statement keeps them out. -/
theorem parse_append_gap_iff {css gap : Text} {s : Sheet} (h : parse css = .ok s)
    (hgap : IsGap gap) (hne : gap ≠ []) :
    parse (css ++ gap) = .ok (s.withGap gap) ↔ s.KeepsOut gap := by
  constructor
  · intro hparse hopen hafter
    have hgapAfter : (s.withGap gap).ending.after = gap := by
      rw [withGap, hafter, List.nil_append]
    have hkeeps := (spells_of_parse hparse).keepsOut (Token.parted_ofText _) hopen
      (by rwa [hgapAfter])
    rwa [hgapAfter] at hkeeps
  · intro hkeeps
    obtain ⟨us, hparted, htext, hspells⟩ := (spells_of_parse h).exists_spells_gap
      (Token.parted_ofText css) hgap hne hkeeps
    rw [Token.textOf_ofText] at htext
    refine parse_of_spells ?_
    rw [← htext, hparted.ofText_textOf]
    exact hspells

/-- A layer with a plain name keeps a stylesheet if and only if the last statement of the
stylesheet keeps a line break out. -/
theorem parse_inLayer_iff {css name : Text} {s : Sheet} (h : parse css = .ok s)
    (hname : Name.isPlain name = true) :
    parse (wrapInLayer css (some name)) = .ok (s.inLayer (layerHead name)) ↔
      s.KeepsOut ['\n'] := by
  have hne : name ≠ [] := by
    rintro rfl
    cases hname
  rw [parse_wrapInLayer hne (stands_layerHead hname) rfl]
  exact parse_append_gap_iff h isGap_lineBreak (List.cons_ne_nil _ _)

end Sheet

/-! ## What is open at the end -/

/-- Whether a text leaves a bracket, an address or an escape open at its end. -/
def Text.endsOpen (x : Text) : Bool :=
  openBrackets (Token.ofText x) != [] || (Token.ofText x).getLast?.any Token.isOpen

/-- Whether a stylesheet ends in a statement that leaves a bracket, an address or an escape open:
the last statement has neither its semicolon nor a blank behind it. -/
def Sheet.endsOpen (s : Sheet) : Bool :=
  !s.ending.terminated && s.ending.after.isEmpty &&
    (s.nodes.getLast?.bind Node.core?).any Text.endsOpen

theorem Text.endsOpen_eq_false_iff {x : Text} :
    x.endsOpen = false ↔ openBrackets (Token.ofText x) = [] ∧
      ∀ t, (Token.ofText x).getLast? = some t → t.isOpen = false := by
  rw [endsOpen, Bool.or_eq_false_iff, bne_eq_false_iff_eq, Option.any_eq_false]

namespace Statement

variable {us : List Token} {d : Draft}

/-- A statement that closes its brackets does not end with an open comment. -/
theorem ne_comment (hs : Statement us d) (hb : d.brackets = []) {t : Token}
    (ht : us.getLast? = some t) (body : Text) : t ≠ .comment body false := by
  rintro rfl
  obtain ⟨vs, rfl⟩ := List.getLast?_eq_some_iff.1 ht
  have hfeed := hs.feed
  rw [Draft.feed_append] at hfeed
  obtain ⟨d₁, _, hlast⟩ := Option.bind_eq_some_iff.1 hfeed
  rw [Draft.feed_cons] at hlast
  obtain ⟨d₂, htake, hnil⟩ := Option.bind_eq_some_iff.1 hlast
  obtain rfl := Option.some.inj hnil
  have hb₁ : d₁.brackets = [] := (Draft.brackets_of_take? htake).symm.trans hb
  unfold Draft.take? at htake
  rw [if_neg (not_not_intro hb₁)] at htake
  cases htake

/-- A statement that leaves nothing open has the same tokens in front of the end of a line. -/
theorem parted_newline (hs : Statement us d) (hb : d.brackets = []) (hus : Token.Parted us [])
    (hopen : ∀ t, us.getLast? = some t → t.isOpen = false) {gap : Text} (hgap : IsGap gap)
    (hnewline : startsWithNewline gap = true) : Token.Parted us gap := by
  have hself := hus.ofText_textOf
  have hbreaks : Breaks (gap ++ []) := breaks_nil.gap_append hgap
  rw [List.append_nil] at hbreaks
  have hends : ∀ t, us.getLast? = some t → t.Ends gap := fun t ht =>
    ⟨hopen t ht, hs.ne_comment hb ht, fun _ _ _ => .inr hnewline⟩
  rw [Token.Parted, Token.ofText_break hbreaks (by rwa [hself]), hself]

end Statement

namespace Sheet

/-- A stylesheet that leaves nothing open at its end keeps line breaks out. -/
theorem keepsOut_of_endsOpen_eq_false {css gap : Text} {s : Sheet} (h : parse css = .ok s)
    (hopen : s.endsOpen = false) (hgap : IsGap gap) (hnewline : startsWithNewline gap = true) :
    s.KeepsOut gap := by
  intro hterminated hafter n hn x hx
  obtain ⟨us, d, hs, hnode, _, _, hus⟩ := (spells_of_parse h).exists_last (Token.parted_ofText css)
    hterminated n hn (Node.isStatement_of_core? hx)
  rw [hafter] at hus
  rw [endsOpen, hterminated, hafter, hn, Option.bind_some, hx] at hopen
  have hcore := hs.core?_node (fun t ht => hus.isRead ht) hnode
  obtain rfl := Option.some.inj (hcore.symm.trans hx)
  obtain ⟨hbrackets, hlast⟩ := Text.endsOpen_eq_false_iff.1 hopen
  rw [hus.ofText_textOf] at hbrackets hlast
  have hb : d.brackets = [] := (Draft.brackets_of_feed hs.feed).trans hbrackets
  exact hs.keepsOut hb (hs.parted_newline hb hus hlast hgap hnewline) hgap hnode _ hx

/-- A layer with a plain name keeps every stylesheet that leaves nothing open at its end. -/
theorem parse_wrapInLayer_of_endsOpen_eq_false {css name : Text} {s : Sheet}
    (h : parse css = .ok s) (hopen : s.endsOpen = false) (hname : Name.isPlain name = true) :
    parse (wrapInLayer css (some name)) = .ok (s.inLayer (layerHead name)) :=
  (parse_inLayer_iff h hname).2 (keepsOut_of_endsOpen_eq_false h hopen isGap_lineBreak rfl)

/-- The string at the end lacks its quote, which is escaped, and it ends with its line. -/
theorem parse_wrapInLayer_string :
    parse "@i url( \\) );d:(e)\"\\\"".toList =
        .ok ⟨[.atStatement ⟨[], ['i'], [' '], "url( \\) )".toList, []⟩ {},
          .declaration ⟨[], ['d'], [':'], "(e)\"\\\"".toList, []⟩], {}⟩ ∧
      Sheet.endsOpen ⟨[.atStatement ⟨[], ['i'], [' '], "url( \\) )".toList, []⟩ {},
          .declaration ⟨[], ['d'], [':'], "(e)\"\\\"".toList, []⟩], {}⟩ = false ∧
      Name.isPlain ['-', 'x'] = true ∧
      parse (wrapInLayer "@i url( \\) );d:(e)\"\\\"".toList (some ['-', 'x'])) =
        .ok ⟨[.atBlock (layerHead ['-', 'x'])
          [.atStatement ⟨['\n'], ['i'], [' '], "url( \\) )".toList, []⟩ {},
            .declaration ⟨[], ['d'], [':'], "(e)\"\\\"".toList, []⟩] ⟨['\n'], false⟩], {}⟩ :=
  have hparse : parse "@i url( \\) );d:(e)\"\\\"".toList =
      .ok ⟨[.atStatement ⟨[], ['i'], [' '], "url( \\) )".toList, []⟩ {},
        .declaration ⟨[], ['d'], [':'], "(e)\"\\\"".toList, []⟩], {}⟩ :=
    parse_of_toOption (by decide +kernel)
  ⟨hparse, by decide +kernel, by decide,
    parse_wrapInLayer_of_endsOpen_eq_false hparse (by decide +kernel) (by decide)⟩

/-- What is open at the end of a stylesheet takes the line break in.  A bracket and an address go
on with the end of the layer, and an escape of digits ends with the line break. -/
theorem parse_wrapInLayer_open :
    Name.isPlain ['x'] = true ∧
      parse "a:(b".toList = .ok ⟨[.declaration ⟨[], ['a'], [':'], ['(', 'b'], []⟩], {}⟩ ∧
      parse (wrapInLayer "a:(b".toList (some ['x'])) = .error ⟨.unclosedBlock, ⟨1, 10⟩⟩ ∧
      parse "a:url(b".toList =
        .ok ⟨[.declaration ⟨[], ['a'], [':'], "url(b".toList, []⟩], {}⟩ ∧
      parse (wrapInLayer "a:url(b".toList (some ['x'])) = .error ⟨.unclosedBlock, ⟨1, 10⟩⟩ ∧
      parse "a:\\61".toList =
        .ok ⟨[.declaration ⟨[], ['a'], [':'], ['\\', '6', '1'], []⟩], {}⟩ ∧
      parse (wrapInLayer "a:\\61".toList (some ['x'])) =
        .ok ⟨[.atBlock (layerHead ['x'])
          [.declaration ⟨['\n'], ['a'], [':'], ['\\', '6', '1', '\n'], []⟩] {}], {}⟩ :=
  ⟨by decide, parse_of_toOption (by decide +kernel), by decide +kernel,
    parse_of_toOption (by decide +kernel), by decide +kernel,
    parse_of_toOption (by decide +kernel), parse_of_toOption (by decide +kernel)⟩

end Sheet

end HostSheet
