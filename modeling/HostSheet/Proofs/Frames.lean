import Mathlib
import HostSheet.Proofs.Pieces

set_option autoImplicit false

/-!
# Names and the ends of selectors

Remapping the names behind brackets goes over a whole text and knows no selectors.  In a
stylesheet that was read it comes to the same as remapping piece by piece: a selector
stands behind a gap, a bracket or a comment, and a gap or a bracket stands behind it, so no
name goes past its ends (`Node.framed_piecesIn`).
-/

namespace HostSheet

open Text

theorem isInner_of_isBlank {c : Char} (h : Syntax.isBlank c = true) :
    Attribute.isInner c = false := by
  simp only [Syntax.isBlank, Bool.or_eq_true, beq_iff_eq] at h
  rcases h with (((rfl | rfl) | rfl) | rfl) | rfl <;> decide

/-- A text behind which no bracketed name goes on. -/
def Closes (u : Text) : Prop :=
  ∀ c, u.getLast? = some c → c ≠ '[' ∧ Attribute.isInner c = false

theorem Closes.append_singleton {c : Char} (u : Text) (hbracket : c ≠ '[')
    (hinner : Attribute.isInner c = false) : Closes (u ++ [c]) := by
  intro d hd
  obtain rfl : c = d := by simpa using hd
  exact ⟨hbracket, hinner⟩

theorem Closes.apart {u v : Text} (h : Closes u) (hu : u ≠ []) : Selector.Apart u v := by
  have hlast := List.getLast?_eq_some_getLast hu
  exact .inl ⟨u.getLast hu, hlast, h _ hlast⟩

theorem IsLoose.closes_append {u t : Text} (h : IsLoose t) (hu : Closes u) :
    Closes (u ++ t) := by
  intro c hc
  by_cases ht : t = []
  · rw [ht, List.append_nil] at hc
    exact hu c hc
  · rw [List.getLast?_append_of_ne_nil _ ht] at hc
    rcases h c (List.mem_of_getLast? hc) with hb | rfl
    · refine ⟨?_, isInner_of_isBlank hb⟩
      rintro rfl
      cases hb
    · decide

/-- Pieces in which no bracketed name goes past an end of a selector, behind the text `u`
that stands between them and the selector in front. -/
inductive Framed : Text → List Piece → Prop
  | nil (u : Text) : Framed u []
  | plain {u t : Text} {ps : List Piece} (h : Framed (u ++ t) ps) : Framed u (.plain t :: ps)
  | selector {u t : Text} {c : Char} {r : Text} {ps : List Piece} (hu : Closes u)
      (hc : Attribute.isInner c = false) (h : Framed [] (.plain (c :: r) :: ps)) :
      Framed u (.selector t :: .plain (c :: r) :: ps)

/-- In framed pieces, what is remapped in the selectors alone does not matter for what is
remapped in the whole. -/
theorem Framed.remapNames_eq {u : Text} {ps : List Piece} (h : Framed u ps)
    {exclude : List Text} {f g : Text → Text}
    (hfg : ∀ t, (Selector.remapNames exclude (f t)).text =
      (Selector.remapNames exclude (g t)).text) :
    (Selector.remapNames exclude (u ++ Piece.textOf (ps.map (Piece.mapSelector f)))).text =
      (Selector.remapNames exclude (u ++ Piece.textOf (ps.map (Piece.mapSelector g)))).text := by
  induction h with
  | nil u => rfl
  | @plain u t ps _ ih =>
    rw [List.append_assoc, List.append_assoc] at ih
    exact ih
  | @selector u t c r ps hu hc _ ih =>
    have hcut : ∀ k : Text → Text, (Selector.remapNames exclude (u ++ Piece.textOf
        ((Piece.selector t :: .plain (c :: r) :: ps).map (Piece.mapSelector k)))).text =
          (Selector.remapNames exclude u).text ++ ((Selector.remapNames exclude (k t)).text ++
            (Selector.remapNames exclude ([] ++ Piece.textOf
              ((Piece.plain (c :: r) :: ps).map (Piece.mapSelector k)))).text) := by
      intro k
      have hnext : Selector.Apart (k t) (Piece.textOf
          ((Piece.plain (c :: r) :: ps).map (Piece.mapSelector k))) := by
        refine .inr ?_
        intro d hd
        obtain rfl : c = d := by simpa [Piece.mapSelector, Piece.text] using hd
        exact hc
      rw [List.nil_append, List.map_cons, Piece.textOf_cons, ← Selector.remapNames_append hnext]
      by_cases hne : u = []
      · rw [hne]
        simp [Selector.remapNames, Pattern.rewrite, Piece.mapSelector, Piece.text]
      · exact Selector.remapNames_append (hu.apart hne)
    rw [hcut f, hcut g, hfg, ih]

/-- Behind the brace that closes a block the pieces are framed, whatever is in the block. -/
theorem Framed.brace {rest : List Piece} (h : ∀ v, Closes v → Framed v rest) (after v : Text) :
    Framed v (.plain (after ++ ['\x7d']) :: rest) := by
  refine .plain (h _ ?_)
  rw [← List.append_assoc]
  exact .append_singleton _ (by decide) (by decide)

namespace Node

/-- A statement with its semicolon, and a comment, end in marks. -/
theorem closes_print_of_children?_eq_none {n : Node} (h : n.children? = none) (u : Text) :
    Closes (u ++ n.print true) := by
  have hmark : ∀ (t : Text) (c : Char), c ≠ '[' → Attribute.isInner c = false →
      n.print true = t ++ [c] → Closes (u ++ n.print true) := by
    intro t c hbracket hinner ht
    rw [ht, ← List.append_assoc]
    exact .append_singleton _ hbracket hinner
  cases n with
  | rule head nodes ending => cases h
  | atBlock head nodes ending => cases h
  | atStatement head ending => exact hmark head.print ';' (by decide) (by decide) rfl
  | declaration d => exact hmark d.print ';' (by decide) (by decide) rfl
  | comment c =>
    refine hmark (c.before ++ '/' :: '*' :: c.text ++ ['*']) '/' (by decide) (by decide) ?_
    rw [print, Comment.print]
    simp

/-- The pieces of nodes with tidy gaps are framed, wherever they stand.  Only comments may
follow a statement that has no semicolon, and they have no selectors. -/
theorem framed_piecesIn {terminated : Bool} {u : Text} {ns : List Node} {rest : List Piece}
    (hgaps : EveryIn HasGaps ns) (hu : Closes u ∨ ns.all isComment = true)
    (hrest : ∀ v, Framed v rest) : Framed u (piecesIn terminated ns ++ rest) := by
  have key : (∀ n : Node, n.children? ≠ none → Every HasGaps n →
        ∀ (terminated : Bool) (u : Text) (rest : List Piece), Closes u →
          (∀ v, Closes v → Framed v rest) → Framed u (n.pieces terminated ++ rest)) ∧
      ∀ ns : List Node, EveryIn HasGaps ns →
        ∀ (terminated : Bool) (u : Text) (rest : List Piece),
          (Closes u ∨ ns.all isComment = true) → (∀ v, Framed v rest) →
          Framed u (piecesIn terminated ns ++ rest) := by
    refine induction ?rule ?atBlock ?leaf ?nil ?cons
    case rule =>
      intro head nodes ending ih _ hgaps terminated u rest hu hrest
      obtain ⟨⟨hbefore, hgap, hafter⟩, hnodes⟩ := hgaps
      obtain ⟨c, r, hcr, hc⟩ : ∃ c r, head.between ++ ['\x7b'] = c :: r ∧
          Attribute.isInner c = false := by
        cases hb : head.between with
        | nil => exact ⟨_, _, rfl, by decide⟩
        | cons c r =>
          refine ⟨c, r ++ ['\x7b'], rfl, ?_⟩
          exact isInner_of_isBlank (hgap c (by rw [hb]; simp))
      rw [pieces]
      simp only [List.cons_append, List.nil_append, List.append_assoc, hcr]
      refine .plain (.selector (hbefore.closes_append hu) hc (.plain ?_))
      refine ih hnodes _ _ _ (.inl ?_) (Framed.brace hrest ending.after)
      rw [← hcr, ← List.append_assoc]
      exact .append_singleton _ (by decide) (by decide)
    case atBlock =>
      intro head nodes ending ih _ hgaps terminated u rest hu hrest
      rw [pieces]
      simp only [List.cons_append, List.nil_append, List.append_assoc]
      refine .plain (ih hgaps.2 _ _ _ (.inl ?_) (Framed.brace hrest ending.after))
      rw [← List.append_assoc]
      exact .append_singleton _ (by decide) (by decide)
    case leaf =>
      intro n hn hc
      exact absurd hn hc
    case nil =>
      intro _ terminated u rest _ hrest
      exact hrest u
    case cons =>
      intro n ns hn hns hgaps terminated u rest hu hrest
      obtain ⟨hgap, hgaps'⟩ := hgaps
      have hnext : ∀ v, (Closes v ∨ ns.all isComment = true) →
          Framed v (piecesIn terminated ns ++ rest) :=
        fun v hv => hns hgaps' terminated v rest hv hrest
      rw [piecesIn, List.append_assoc]
      cases hc : n.children? with
      | some children =>
        refine hn (by simp [hc]) hgap _ u _ ?_ fun v hv => hnext v (.inl hv)
        rcases hu with hu | hall
        · exact hu
        · rw [List.all_cons, isComment_of_children?_eq_some hc] at hall
          cases hall
      | none =>
        rw [pieces_of_children?_eq_none hc]
        refine .plain (hnext _ ?_)
        by_cases hall : ns.all isComment = true
        · exact .inr hall
        · have hany : ns.any (!·.isComment) = true := by
            rw [List.any_eq_not_all_not]
            simpa using hall
          rw [hany, Bool.or_true]
          exact .inl (closes_print_of_children?_eq_none hc u)
  exact key.2 ns hgaps terminated u rest hu hrest

end Node

end HostSheet
