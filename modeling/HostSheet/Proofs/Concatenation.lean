import Mathlib
import HostSheet.Proofs.Placing
import HostSheet.Proofs.Regularity

set_option autoImplicit false

/-!
# Stylesheets one after the other

Reading two texts that stand one after the other is reading each of them, as long as nothing is
left open in between: the first text must not end in a statement without a semicolon
(`Sheet.IsClosed`).  Then the gap at its end goes in front of the first node of the second text,
and the semicolon of its last statement counts on if only comments follow (`Sheet.parse_append`).

Two things cross the seam.  The last token of a closed text ends by itself, so that no token takes
characters from both texts (`Spells.parted`).  And a list of nodes may be spelled behind any flag
(`Spells.behindFlag`), so that the second list can follow the first (`Spells.append`).
-/

namespace HostSheet

open Syntax

/-! ## No token across the seam -/

/-- A mark that ends all tokens in front of it separates them from what stands behind it. -/
theorem Syntax.Token.Parted.replace_behind {us ts ts' : List Token} {t : Token} {c : Char}
    {w w' : Text} (h : Parted (us ++ t :: ts) w) (htext : t.text = [c]) (hc : isSeam c = true)
    (hread : ∀ r, ofText (c :: r) = t :: ofText r) (hus : Shut us) (hts : Parted ts' w') :
    Parted (us ++ t :: ts') w' := by
  have hmark : ∀ vs v, textOf (t :: vs) ++ v = c :: (textOf vs ++ v) := by
    intro vs v
    rw [textOf_cons, htext]
    rfl
  have hfront := (parted_append_iff.1 h).1
  rw [hmark] at hfront
  refine parted_append_iff.2 ⟨?_, ?_⟩
  · rw [hmark]
    exact hfront.replace hc hus _
  · rw [Parted, hmark, hread, hts]
    rfl

/-- A comment ends by itself. -/
theorem Syntax.Token.Parted.behind_comment {us ts ts' : List Token} {body w w' : Text}
    (h : Parted (us ++ .comment body true :: ts) w) (hus : ∀ v, Parted us v)
    (hts : Parted ts' w') : Parted (us ++ .comment body true :: ts') w' := by
  obtain ⟨_, hbody⟩ := parted_append_iff.1 h
  obtain ⟨hcomment, _⟩ := parted_cons_iff.1 hbody
  have hone : Parted [.comment body true] (textOf ts ++ w) :=
    parted_cons_iff.2 ⟨hcomment, parted_nil _⟩
  refine parted_append_iff.2 ⟨hus _, ?_⟩
  rw [Parted, textOf_cons, List.append_assoc, ofText_comment hone, hts]
  rfl

namespace Statement

variable {us ts ts' inner : List Token} {d : Draft} {before gap w w' : Text}

/-- A statement ends with its semicolon. -/
theorem parted_semicolon (hs : Statement us d) (hb : d.brackets = [])
    (h : Token.Parted (Token.ofGap before ++ us ++ Token.ofGap gap ++ .semicolon :: ts) w)
    (hts : Token.Parted ts' w') :
    Token.Parted (Token.ofGap before ++ us ++ Token.ofGap gap ++ .semicolon :: ts') w' :=
  h.replace_behind rfl rfl Token.ofText_semicolon
    (((Token.shut_ofGap _).append (hs.shut hb)).append (Token.shut_ofGap _)) hts

/-- A block ends with its brace. -/
theorem parted_block (hs : Statement us d) (hb : d.brackets = []) {nodes : List Node}
    {ending : Ending} (hinner : Spells true false inner nodes ending)
    (h : Token.Parted (Token.ofGap before ++ us ++ Token.ofGap gap ++
      .opener [] .curly :: (inner ++ .closer .curly :: ts)) w) (hts : Token.Parted ts' w') :
    Token.Parted (Token.ofGap before ++ us ++ Token.ofGap gap ++
      .opener [] .curly :: (inner ++ .closer .curly :: ts')) w' := by
  refine h.replace_behind rfl rfl Token.ofText_opener_curly
    (((Token.shut_ofGap _).append (hs.shut hb)).append (Token.shut_ofGap _)) ?_
  exact h.tail.replace_behind rfl rfl Token.ofText_closer_curly (hinner.shut rfl) hts

end Statement

namespace Spells

variable {inBlock terminated : Bool} {ts : List Token} {ns : List Node} {e : Ending}

/-- The tokens of a list that does not end in an open statement are the same in front of any
text. -/
theorem parted (h : Spells inBlock terminated ts ns e)
    (hclosed : Node.endsInStatement terminated ns = true → e.terminated = true) {w : Text}
    (hts : Token.Parted ts w) (w' : Text) : Token.Parted ts w' := by
  induction h with
  | nil hgap => exact Token.parted_ofGap hgap w'
  | last hbefore hs hn hgap hb =>
    rw [Node.endsInStatement_cons, Draft.isComment_of_node hn, Node.isStatement_of_node hn]
      at hclosed
    cases hclosed rfl
  | comment hbefore h ih =>
    exact hts.behind_comment (Token.parted_ofGap hbefore) (ih hclosed hts.tail)
  | statement hbefore hs hb hgap hn h ih =>
    rw [Node.endsInStatement_cons, Draft.isComment_of_node hn, Node.isStatement_of_node hn]
      at hclosed
    exact hs.parted_semicolon hb hts (ih hclosed hts.tail)
  | block hbefore hs hb hgap hh hinner h ihinner ih =>
    rw [Node.endsInStatement_cons, BlockHead.isComment_node, Node.isStatement_node] at hclosed
    exact hs.parted_block hb hinner hts (ih hclosed hts.tail.tail)

/-! ## Lists one after the other -/

/-- A list of nodes behind another flag.  It goes to the end if there are only comments. -/
theorem behindFlag (h : Spells inBlock terminated ts ns e) (terminated' : Bool) :
    Spells inBlock terminated' ts ns
      { e with terminated := if ns.any (!·.isComment) then e.terminated else terminated' } := by
  induction h with
  | nil hgap => exact .nil hgap
  | last hbefore hs hn hgap hb =>
    rw [List.any_cons, Draft.isComment_of_node hn]
    exact .last hbefore hs hn hgap hb
  | comment hbefore h ih => exact .comment hbefore ih
  | statement hbefore hs hb hgap hn h ih =>
    rw [List.any_cons, Draft.isComment_of_node hn]
    exact .statement hbefore hs hb hgap hn h
  | block hbefore hs hb hgap hh hinner h ihinner ih =>
    rw [List.any_cons, BlockHead.isComment_node]
    exact .block hbefore hs hb hgap hh hinner h

/-- A list of nodes behind a list that does not end in an open statement. -/
theorem append (h : Spells inBlock terminated ts ns e)
    (hclosed : Node.endsInStatement terminated ns = true → e.terminated = true)
    {us : List Token} {ms : List Node} {e' : Ending}
    (h' : Spells inBlock e.terminated us ms e') :
    Spells inBlock terminated (ts ++ us) (ns ++ Node.behind e.after ms)
      (Node.endingBehind e.after ms e') := by
  induction h with
  | nil hgap => exact h'.behind hgap
  | last hbefore hs hn hgap hb =>
    rw [Node.endsInStatement_cons, Draft.isComment_of_node hn, Node.isStatement_of_node hn]
      at hclosed
    cases hclosed rfl
  | comment hbefore h ih =>
    rw [List.append_assoc, List.cons_append, List.cons_append]
    exact .comment hbefore (ih hclosed h')
  | statement hbefore hs hb hgap hn h ih =>
    rw [Node.endsInStatement_cons, Draft.isComment_of_node hn, Node.isStatement_of_node hn]
      at hclosed
    rw [List.append_assoc, List.cons_append, List.cons_append]
    exact .statement hbefore hs hb hgap hn (ih hclosed h')
  | @block _ _ before gap vs inner ts d head nodes ns ending e hbefore hs hb hgap hh hinner h
      ihinner ih =>
    rw [Node.endsInStatement_cons, BlockHead.isComment_node, Node.isStatement_node] at hclosed
    simp only [List.append_assoc, List.cons_append]
    rw [← List.append_assoc, ← List.append_assoc]
    exact .block hbefore hs hb hgap hh hinner (ih hclosed h')

end Spells

/-! ## Stylesheets -/

namespace Sheet

/-- Nothing is left open at the end of a stylesheet: it has nothing but comments, or its last
node, comments apart, has a block, or its last statement has a semicolon. -/
def IsClosed (s : Sheet) : Prop :=
  Node.lastNode? s.nodes = none ∨
    (∃ n, Node.lastNode? s.nodes = some n ∧ n.children?.isSome = true) ∨
      s.ending.terminated = true

/-- A stylesheet behind another: the gap at the end of the first goes in front of the second, and
its flag counts on if there are only comments in the second. -/
def append (s t : Sheet) : Sheet where
  nodes := s.nodes ++ Node.behind s.ending.after t.nodes
  ending := Node.endingBehind s.ending.after t.nodes
    { t.ending with
      terminated :=
        if t.nodes.any (!·.isComment) then t.ending.terminated else s.ending.terminated }

theorem IsClosed.terminated {s : Sheet} (h : s.IsClosed)
    (hends : Node.endsInStatement false s.nodes = true) : s.ending.terminated = true := by
  obtain ⟨n, hlast, hn⟩ := Node.endsInStatement_iff.1 hends
  rcases h with hnone | ⟨m, hm, hblock⟩ | hflag
  · rw [hnone] at hlast
    cases hlast
  · obtain rfl := Option.some.inj (hm.symm.trans hlast)
    cases m with
    | atStatement head ending => cases hblock
    | declaration d => cases hblock
    | _ => cases hn
  · exact hflag

/-- Two texts one after the other are read as two stylesheets one after the other, if nothing is
left open at the end of the first. -/
theorem parse_append {x y : Text} {s t : Sheet} (hx : parse x = .ok s) (hy : parse y = .ok t)
    (hclosed : s.IsClosed) : parse (x ++ y) = .ok (s.append t) := by
  have hfirst := spells_of_parse hx
  have hsecond := (spells_of_parse hy).behindFlag s.ending.terminated
  have hseam : Token.ofText (x ++ y) = Token.ofText x ++ Token.ofText y := by
    have hparted := hfirst.parted hclosed.terminated (Token.parted_ofText x) y
    rwa [Token.Parted, Token.textOf_ofText] at hparted
  refine parse_of_spells ?_
  rw [hseam]
  exact hfirst.append hclosed.terminated hsecond

/-- A stray semicolon and a comment at the seam, and nothing but a comment behind it. -/
theorem parse_append_comments :
    parse "@a b\x7bc:d\x7d@e;/*f*/ ;".toList = .ok ⟨[.atBlock ⟨[], ['a'], [' '], ['b'], []⟩
        [.declaration ⟨[], ['c'], [':'], ['d'], []⟩] {},
        .atStatement ⟨[], ['e'], [], [], []⟩ {}, .comment ⟨[], ['f']⟩], ⟨[' ', ';'], true⟩⟩ ∧
      parse "\n/*g*/".toList = .ok ⟨[.comment ⟨['\n'], ['g']⟩], {}⟩ ∧
      parse ("@a b\x7bc:d\x7d@e;/*f*/ ;".toList ++ "\n/*g*/".toList) =
        .ok ⟨[.atBlock ⟨[], ['a'], [' '], ['b'], []⟩
            [.declaration ⟨[], ['c'], [':'], ['d'], []⟩] {},
          .atStatement ⟨[], ['e'], [], [], []⟩ {}, .comment ⟨[], ['f']⟩,
          .comment ⟨[' ', ';', '\n'], ['g']⟩], ⟨[], true⟩⟩ := by
  have hx : parse "@a b\x7bc:d\x7d@e;/*f*/ ;".toList =
      .ok ⟨[.atBlock ⟨[], ['a'], [' '], ['b'], []⟩
        [.declaration ⟨[], ['c'], [':'], ['d'], []⟩] {},
        .atStatement ⟨[], ['e'], [], [], []⟩ {}, .comment ⟨[], ['f']⟩], ⟨[' ', ';'], true⟩⟩ :=
    parse_of_toOption (by decide +kernel)
  have hy : parse "\n/*g*/".toList = .ok ⟨[.comment ⟨['\n'], ['g']⟩], {}⟩ :=
    parse_of_toOption (by decide +kernel)
  exact ⟨hx, hy, parse_append hx hy (.inr (.inr rfl))⟩

end Sheet

end HostSheet
