import Mathlib
import HostSheet.Layer
import HostSheet.Proofs.Closed

set_option autoImplicit false

/-!
# A stylesheet in its layer

A layer is one at-rule around a whole text, with a line break at both ends.  It keeps the nodes
of the text as they are if and only if the line break behind the text is read as white space
(`Sheet.parse_wrapInLayer`).
-/

namespace HostSheet

open Syntax

/-! ## Layers -/

/-- What stands in front of the block of a layer. -/
def layerHead (name : Text) : AtHead := ⟨[], ['l', 'a', 'y', 'e', 'r'], [' '], name, [' ']⟩

/-- The head of a layer with a plain name is read back in front of any block. -/
theorem stands_layerHead {name : Text} (h : Name.isPlain name = true) :
    (BlockHead.atRule (layerHead name)).Stands := by
  have hgap : IsGap [' '] := by decide
  have hsound : (layerHead name).IsSound :=
    ⟨rfl, .inr ⟨Text.isClosed_of_isPlain h, List.cons_ne_nil _ _⟩⟩
  exact hsound.stands isLoose_nil hgap hgap

namespace Sheet

/-- The stylesheet with a line break behind it. -/
def withLineBreak (s : Sheet) : Sheet :=
  { s with ending := { s.ending with after := s.ending.after ++ ['\n'] } }

/-- The stylesheet as the one block of a layer, with a line break at both ends. -/
def inLayer (head : AtHead) (s : Sheet) : Sheet :=
  ⟨[.atBlock head (Node.behind ['\n'] s.nodes)
    (Node.endingBehind ['\n'] s.nodes s.withLineBreak.ending)], {}⟩

end Sheet

theorem wrapInLayer_eq_print {name : Text} (h : name ≠ []) {head : AtHead}
    (hprint : head.print = (layerHead name).print) (s : Text) :
    wrapInLayer s (some name) =
      (BlockHead.atRule head).print ++ '\x7b' :: (('\n' :: (s ++ ['\n'])) ++ ['\x7d']) := by
  obtain ⟨c, u, rfl⟩ := List.exists_cons_of_ne_nil h
  rw [BlockHead.print, hprint]
  simp [wrapInLayer, layerHead, AtHead.print]

theorem isGap_lineBreak : IsGap ['\n'] := fun c hc => by rw [List.mem_singleton.1 hc]; rfl

namespace Sheet

/-- A layer keeps a stylesheet if and only if a line break behind the stylesheet does. -/
theorem parse_wrapInLayer {name : Text} (hname : name ≠ []) {head : AtHead}
    (hhead : (BlockHead.atRule head).Stands) (hprint : head.print = (layerHead name).print)
    (css : Text) (s : Sheet) :
    parse (wrapInLayer css (some name)) = .ok (s.inLayer head) ↔
      parse (css ++ ['\n']) = .ok s.withLineBreak := by
  have hbreak : ∀ w, Token.ofText ('\n' :: w) = Token.ofGap ['\n'] ++ Token.ofText w :=
    fun w => Token.ofText_gap_append isGap_lineBreak.isLoose w
  have hafter : s.withLineBreak.ending.after = s.ending.after ++ ['\n'] := rfl
  rw [wrapInLayer_eq_print hname hprint]
  refine parse_block_iff.trans ⟨?_, fun h => ⟨hhead, ?_⟩⟩
  · rintro ⟨_, ts, htokens, hspells⟩
    rw [List.cons_append, hbreak] at htokens
    cases ts with
    | nil => cases htokens
    | cons t ts =>
      obtain ⟨rfl, hrest⟩ := List.cons.inj htokens
      obtain ⟨ns, e, hspells', hnodes, hending⟩ := hspells.of_blank rfl
      obtain ⟨rfl, rfl⟩ := Node.behind_inj hnodes hending
      refine parse_of_spells ?_
      rw [(hspells'.ofText_append_closer rfl hafter _).1 hrest]
      exact hspells'.exposed rfl
  · have hspells := (spells_of_parse h).enclosed (by rw [hafter]; simp)
    refine ⟨_, ?_, hspells.behind isGap_lineBreak.isLoose⟩
    rw [List.cons_append, hbreak, (hspells.ofText_append_closer rfl hafter _).2 rfl,
      List.append_assoc]

end Sheet

end HostSheet
