import Mathlib
import HostSheet.Proofs.Listing
import HostSheet.Proofs.Gaps
import HostSheet.Proofs.Brackets
import HostSheet.Sheet.Print
import HostSheet.Sheet.Walk

set_option autoImplicit false

/-!
# The selectors in the text of a stylesheet

A stylesheet as text is a row of pieces, selectors and all that is between them
(`Sheet.pieces`).  Changing the selectors of the stylesheet changes these pieces and no
other (`Sheet.pieces_mapSelectors`), so a pattern that matches inside selectors only is
replaced in the whole text by replacing it in every selector
(`Text.Pattern.IsLocal.replaceAll_textOf`).
-/

namespace HostSheet

open Text

/-- A part of the text of a stylesheet. -/
inductive Piece where
  | plain (text : Text)
  /-- The selector of a style rule. -/
  | selector (text : Text)
  deriving DecidableEq, Repr

namespace Piece

def text : Piece → Text
  | plain t => t
  | selector t => t

/-- Change the text of a selector. -/
def mapSelector (f : Text → Text) : Piece → Piece
  | plain t => plain t
  | selector t => selector (f t)

/-- The text of pieces. -/
def textOf (ps : List Piece) : Text := ps.flatMap text

@[simp] theorem textOf_nil : textOf [] = [] := rfl

@[simp] theorem textOf_cons (p : Piece) (ps : List Piece) :
    textOf (p :: ps) = p.text ++ textOf ps := by
  simp [textOf]

@[simp] theorem textOf_append (ps qs : List Piece) :
    textOf (ps ++ qs) = textOf ps ++ textOf qs := by
  simp [textOf]

/-- Where the selectors start and end, in a text whose first character has the offset
`i`. -/
def spansFrom (i : Nat) : List Piece → List (Nat × Nat)
  | [] => []
  | plain t :: ps => spansFrom (i + t.length) ps
  | selector t :: ps => (i, i + t.length) :: spansFrom (i + t.length) ps

theorem le_of_mem_spansFrom {i : Nat} {ps : List Piece} {m : Nat × Nat}
    (h : m ∈ spansFrom i ps) : i ≤ m.1 := by
  induction ps generalizing i with
  | nil => cases h
  | cons p ps ih =>
    cases p with
    | plain t =>
      have := ih h
      omega
    | selector t =>
      rcases List.mem_cons.1 h with rfl | h
      · exact le_rfl
      · have := ih h
        omega

end Piece

/-- All matches of a pattern in a text lie inside selectors. -/
def InSelectors (matched selectors : List (Nat × Nat)) : Prop :=
  ∀ m ∈ matched, ∃ t ∈ selectors, t.1 ≤ m.1 ∧ m.2 ≤ t.2

namespace Text.Pattern

/-- A local pattern that matches in selectors only is replaced selector by selector. -/
theorem IsLocal.replaceAll_textOf {p : Pattern} (hp : p.IsLocal) {i : Nat}
    {ps : List Piece}
    (h : InSelectors (p.spansFrom i (Piece.textOf ps)) (Piece.spansFrom i ps)) :
    p.replaceAll (Piece.textOf ps) = Piece.textOf (ps.map (Piece.mapSelector p.replaceAll)) := by
  induction ps generalizing i with
  | nil => simp
  | cons piece ps ih =>
    cases piece with
    | plain t =>
      have hskip : ∀ m ∈ p.spansFrom i (t ++ Piece.textOf ps), i + t.length ≤ m.1 := by
        intro m hm
        obtain ⟨s, hs, hlow, _⟩ := h m (by rw [Piece.textOf_cons]; exact hm)
        have := Piece.le_of_mem_spansFrom (i := i + t.length) hs
        omega
      obtain ⟨hreplace, hspans⟩ := skip_of_spansFrom hskip
      rw [Piece.textOf_cons, Piece.text, hspans] at h
      simp only [Piece.textOf_cons, Piece.text, List.map_cons, Piece.mapSelector]
      rw [hreplace, ih h]
    | selector t =>
      -- A match that starts in the selector lies in it, for all others start behind it.
      have hcut : ∀ m ∈ p.spansFrom i (t ++ Piece.textOf ps),
          m.1 < i + t.length → m.2 ≤ i + t.length := by
        intro m hm hlow
        obtain ⟨s, hs, hle, hstop⟩ := h m (by rw [Piece.textOf_cons]; exact hm)
        rcases List.mem_cons.1 hs with rfl | hs
        · exact hstop
        · have := Piece.le_of_mem_spansFrom hs
          omega
      obtain ⟨hreplace, hspans⟩ := hp.cut hcut
      have hrest : InSelectors (p.spansFrom (i + t.length) (Piece.textOf ps))
          (Piece.spansFrom (i + t.length) ps) := by
        intro m hm
        have hbounds := bounds_of_mem_spansFrom hm
        obtain ⟨s, hs, hle, hstop⟩ := h m (by
          rw [Piece.textOf_cons, Piece.text, hspans]
          exact List.mem_append_right _ hm)
        rcases List.mem_cons.1 hs with rfl | hs
        · dsimp only at hstop
          omega
        · exact ⟨s, hs, hle, hstop⟩
      simp only [Piece.textOf_cons, Piece.text, List.map_cons, Piece.mapSelector]
      rw [hreplace, ih hrest]

end Text.Pattern

/-! ## The pieces of a stylesheet -/

namespace Node

mutual

/-- The pieces of a node. -/
def pieces (terminated : Bool) : Node → List Piece
  | rule head nodes ending =>
    [.plain head.before, .selector head.selector, .plain (head.between ++ ['\x7b'])] ++
      piecesIn ending.terminated nodes ++ [.plain (ending.after ++ ['\x7d'])]
  | atBlock head nodes ending =>
    [.plain (head.print ++ ['\x7b'])] ++
      piecesIn ending.terminated nodes ++ [.plain (ending.after ++ ['\x7d'])]
  | n => [.plain (n.print terminated)]

/-- The pieces of nodes. -/
def piecesIn (terminated : Bool) : List Node → List Piece
  | [] => []
  | n :: ns => pieces (terminated || ns.any (!·.isComment)) n ++ piecesIn terminated ns

end

theorem pieces_of_children?_eq_none {n : Node} (h : n.children? = none) (terminated : Bool) :
    n.pieces terminated = [.plain (n.print terminated)] := by
  cases n with
  | rule head nodes ending => cases h
  | atBlock head nodes ending => cases h
  | atStatement head ending => simp [pieces]
  | declaration d => simp [pieces]
  | comment c => simp [pieces]

theorem textOf_piecesIn (terminated : Bool) (ns : List Node) :
    Piece.textOf (piecesIn terminated ns) = printAll terminated ns := by
  have key : (∀ n : Node, ∀ terminated,
        Piece.textOf (n.pieces terminated) = n.print terminated) ∧
      ∀ ns : List Node, ∀ terminated,
        Piece.textOf (piecesIn terminated ns) = printAll terminated ns := by
    refine induction ?rule ?atBlock ?leaf ?nil ?cons
    case rule =>
      intro head nodes ending ih terminated
      rw [pieces, print]
      simp [Piece.text, ih, RuleHead.print]
    case atBlock =>
      intro head nodes ending ih terminated
      rw [pieces, print]
      simp [Piece.text, ih]
    case leaf =>
      intro n hn terminated
      rw [pieces_of_children?_eq_none hn]
      simp [Piece.text]
    case nil =>
      intro terminated
      rfl
    case cons =>
      intro n ns hn hns terminated
      rw [piecesIn, printAll, Piece.textOf_append, hn, hns]
  exact key.2 ns terminated

theorem mapSelectors_of_children?_eq_none {n : Node} (h : n.children? = none)
    (f : Text → Text) : n.mapSelectors f = n := by
  cases n with
  | rule head nodes ending => cases h
  | atBlock head nodes ending => cases h
  | _ => simp only [mapSelectors]

theorem isComment_mapSelectors (f : Text → Text) (n : Node) :
    (n.mapSelectors f).isComment = n.isComment := by
  cases n <;> simp [mapSelectors, isComment]

theorem any_mapSelectorsIn (f : Text → Text) (ns : List Node) :
    (mapSelectorsIn f ns).any (!·.isComment) = ns.any (!·.isComment) := by
  induction ns with
  | nil => rfl
  | cons n ns ih => rw [mapSelectorsIn, List.any_cons, List.any_cons, ih, isComment_mapSelectors]

theorem piecesIn_mapSelectorsIn (f : Text → Text) (terminated : Bool) (ns : List Node) :
    piecesIn terminated (mapSelectorsIn f ns) =
      (piecesIn terminated ns).map (Piece.mapSelector f) := by
  have key : (∀ n : Node, ∀ terminated,
        (n.mapSelectors f).pieces terminated =
          (n.pieces terminated).map (Piece.mapSelector f)) ∧
      ∀ ns : List Node, ∀ terminated,
        piecesIn terminated (mapSelectorsIn f ns) =
          (piecesIn terminated ns).map (Piece.mapSelector f) := by
    refine induction ?rule ?atBlock ?leaf ?nil ?cons
    case rule | atBlock =>
      intro head nodes ending ih terminated
      rw [mapSelectors, pieces, pieces, ih]
      simp [Piece.mapSelector]
    case leaf =>
      intro n hn terminated
      rw [mapSelectors_of_children?_eq_none hn, pieces_of_children?_eq_none hn]
      rfl
    case nil =>
      intro terminated
      rfl
    case cons =>
      intro n ns hn hns terminated
      rw [mapSelectorsIn, piecesIn, piecesIn, any_mapSelectorsIn, hn, hns, List.map_append]
  exact key.2 ns terminated

end Node

namespace Sheet

/-- The text of a stylesheet in pieces. -/
def pieces (s : Sheet) : List Piece :=
  Node.piecesIn s.ending.terminated s.nodes ++ [.plain s.ending.after]

/-- Where the selectors stand in the text of a stylesheet. -/
def selectorSpans (s : Sheet) : List (Nat × Nat) := Piece.spansFrom 0 s.pieces

theorem textOf_pieces (s : Sheet) : Piece.textOf s.pieces = s.print := by
  rw [pieces, Piece.textOf_append, Node.textOf_piecesIn, print]
  simp [Piece.text]

theorem pieces_mapSelectors (f : Text → Text) (s : Sheet) :
    (s.mapSelectors f).pieces = s.pieces.map (Piece.mapSelector f) := by
  rw [pieces, pieces, mapSelectors, Node.piecesIn_mapSelectorsIn]
  simp [Piece.mapSelector]

/-- A local pattern that matches in selectors only can be replaced in the stylesheet as
well as in its text. -/
theorem replaceAll_print {p : Pattern} (hp : p.IsLocal) {s : Sheet}
    (h : InSelectors (p.spans s.print) s.selectorSpans) :
    p.replaceAll s.print = (s.mapSelectors p.replaceAll).print := by
  rw [← textOf_pieces] at h
  rw [← textOf_pieces, ← textOf_pieces, hp.replaceAll_textOf h, pieces_mapSelectors]

end Sheet

end HostSheet
