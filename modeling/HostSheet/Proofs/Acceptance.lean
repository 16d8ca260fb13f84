import Mathlib
import HostSheet.Options.Check
import HostSheet.Proofs.Layering
import HostSheet.Proofs.Reprinting

set_option autoImplicit false

/-!
# Options that keep a stylesheet readable

The options put texts of the user into selectors and in front of a layer.  What is written is a
stylesheet again if each of these texts is read back on its own: the head of every rewritten
rule in front of an empty block (`Node.KeepsHead`), and the name of the layer around nothing
(`Options.KeepsLayer`).  Then it is read back wherever it stands (`parse_transformTree`).

The check of the options asks for less.  It lets a host tag pass that opens a bracket which
nothing closes (`parse_transformTree_open_bracket`).
-/

namespace HostSheet

open Syntax

/-- What the options make of the head of a rule is read back in front of an empty block, if they
change it. -/
def Node.KeepsHead (o : Options) : Node → Prop
  | rule head _ _ =>
    Selector.isHostOnly head.selector = true ∨ head.rewrite o = head ∨
      Sheet.parse ((head.rewrite o).print ++ ['\x7b', '\x7d']) =
        .ok ⟨[.rule (head.rewrite o) [] {}], {}⟩
  | _ => True

namespace Options

/-- An empty layer with the name of the layer is read back. -/
def KeepsLayer (o : Options) : Prop :=
  ∀ name, o.layer = some name → ∃ head,
    Sheet.parse (wrapInLayer [] (some name)) = .ok ⟨[.atBlock head [] ⟨['\n', '\n'], false⟩], {}⟩

theorem layer_ne_nil {o : Options} {name : Text} (h : o.layer = some name) : name ≠ [] := by
  obtain ⟨_, hne⟩ := Option.filter_eq_some_iff.1 h
  simpa using hne

/-- A plain name is kept. -/
theorem keepsLayer_of_isPlain {o : Options}
    (h : ∀ name, o.layer = some name → Name.isPlain name = true) : o.KeepsLayer := by
  intro name hname
  have hempty : Sheet.parse ([] ++ ['\n']) = .ok (Sheet.withLineBreak {}) :=
    Sheet.parse_of_toOption (by decide +kernel)
  exact ⟨layerHead name, (Sheet.parse_wrapInLayer (layer_ne_nil hname)
    (stands_layerHead (h name hname)) rfl [] {}).2 hempty⟩

end Options

/-- A layer whose empty form is read back stands in front of any block. -/
theorem stands_of_parse_wrapInLayer {name : Text} (hname : name ≠ []) {head : AtHead}
    (h : Sheet.parse (wrapInLayer [] (some name)) =
      .ok ⟨[.atBlock head [] ⟨['\n', '\n'], false⟩], {}⟩) :
    (BlockHead.atRule head).Stands ∧ head.print = (layerHead name).print := by
  have hwrap := @wrapInLayer_eq_print name hname (layerHead name) rfl []
  have hprint : head.print = (layerHead name).print := by
    have hsheet := Sheet.print_of_parse h
    rw [hwrap] at hsheet
    have htext : Sheet.print ⟨[.atBlock head [] ⟨['\n', '\n'], false⟩], {}⟩ =
        head.print ++ ['\x7b', '\n', '\n', '\x7d'] := by
      simp [Sheet.print, Node.printAll, Node.print]
    rw [htext] at hsheet
    exact List.append_cancel_right hsheet
  refine ⟨?_, hprint⟩
  rw [wrapInLayer_eq_print hname hprint] at h
  exact (Sheet.parse_block_iff.1 h).1

namespace Sheet

/-- Nodes that stand are read back inside a layer. -/
theorem exists_parse_wrapInLayer {s : Sheet} (hstands : Node.EveryIn Node.Stands s.nodes)
    (hafter : IsLoose s.ending.after) {name : Text} (hname : name ≠ []) {head : AtHead}
    (hhead : (BlockHead.atRule head).Stands) (hprint : head.print = (layerHead name).print) :
    ∃ s', parse (wrapInLayer s.print (some name)) = .ok s' := by
  obtain ⟨ts, ns', e, hspells, _, htokens⟩ := Node.rereads_printAll hstands s.ending.terminated
    (hafter.append isGap_lineBreak.isLoose) true false
  have hbrace := htokens ['\x7d'] (.inr ⟨[], rfl⟩)
  rw [← List.append_assoc] at hbrace
  rw [wrapInLayer_eq_print hname hprint]
  refine ⟨_, parse_block_iff.2 ⟨hhead, _, ?_, hspells.behind isGap_lineBreak.isLoose⟩⟩
  have hbreak := Token.ofText_gap_append isGap_lineBreak.isLoose (s.print ++ ['\n'] ++ ['\x7d'])
  rw [print, hbrace, Token.ofText_closer_curly, Token.ofText] at hbreak
  rw [List.append_assoc]
  exact hbreak

end Sheet

/-- A rewritten stylesheet is read back, layer included, if the options keep the heads of its
rules and the name of the layer, and no token at the end of a statement takes more characters
in. -/
theorem parse_transformTree {o : Options} {css : Text} {s : Sheet}
    (hparse : Sheet.parse css = .ok s) (hfirm : Node.EveryIn Node.IsFirm s.nodes)
    (hheads : Node.EveryIn (Node.KeepsHead o) s.nodes) (hlayer : o.KeepsLayer) :
    ∃ out s', transformTree o css = .ok out ∧ Sheet.parse out = .ok s' := by
  have hout : transformTree o css = .ok (wrapInLayer (s.transform o).print o.layer) := by
    unfold transformTree
    rw [hparse]
    rfl
  obtain ⟨hsource, hafter⟩ := Sheet.everyIn_stands_of_parse hparse hfirm
  have hstands : Node.EveryIn Node.Stands (s.transform o).nodes := by
    refine Sheet.everyIn_stands_transform o hsource ?_
    refine Node.everyIn_imp₂ (fun n hn hkeeps => ?_) hsource hheads
    rintro head nodes ending rfl hhost
    rcases hkeeps with honly | heq | hread
    · rw [hhost] at honly
      cases honly
    · rw [heq]
      exact hn.1
    · exact ((@Sheet.parse_block_iff (.rule (head.rewrite o)) [] [] {}).1 hread).1
  cases hname : o.layer with
  | none =>
    rw [hname] at hout
    obtain ⟨s', hs', _⟩ := Sheet.exists_parse_print hstands hafter
    exact ⟨_, s', hout, hs'⟩
  | some name =>
    rw [hname] at hout
    obtain ⟨head, hempty⟩ := hlayer name hname
    have hne := Options.layer_ne_nil hname
    obtain ⟨hhead, hprint⟩ := stands_of_parse_wrapInLayer hne hempty
    obtain ⟨s', hs'⟩ := Sheet.exists_parse_wrapInLayer hstands hafter hne hhead hprint
    exact ⟨_, s', hout, hs'⟩

theorem parse_transformTree_data :
    let o : Options := ⟨"my-el".toList, some "base.theme".toList, true, none⟩
    let css : Text := ":host([id=x]) b\x7bc:d;\x7d:host\x7be:f\x7d[g]\x7b\x7d".toList
    ∃ s, Sheet.parse css = .ok s ∧ Node.EveryIn Node.IsFirm s.nodes ∧
      Node.EveryIn (Node.KeepsHead o) s.nodes ∧ o.KeepsLayer ∧
      ∃ out s', transformTree o css = .ok out ∧ Sheet.parse out = .ok s' := by
  intro o css
  let s : Sheet := ⟨[.rule ⟨[], ":host([id=x]) b".toList, []⟩
      [.declaration ⟨[], ['c'], [':'], ['d'], []⟩] ⟨[], true⟩,
    .rule ⟨[], ":host".toList, []⟩ [.declaration ⟨[], ['e'], [':'], ['f'], []⟩] {},
    .rule ⟨[], "[g]".toList, []⟩ [] {}], {}⟩
  have hparse : Sheet.parse css = .ok s := Sheet.parse_of_toOption (by decide +kernel)
  have hfirm : Node.EveryIn Node.IsFirm s.nodes := by
    have hc : Firm ['c', ':', 'd'] := by decide +kernel
    have he : Firm ['e', ':', 'f'] := by decide +kernel
    simp [s, Node.EveryIn, Node.Every, Node.IsFirm, Node.core?, Declaration.core, hc, he]
  have hheads : Node.EveryIn (Node.KeepsHead o) s.nodes :=
    ⟨⟨.inr (.inr (Sheet.parse_of_toOption (by decide +kernel))), trivial, trivial⟩,
      ⟨.inl rfl, trivial, trivial⟩,
      ⟨.inr (.inr (Sheet.parse_of_toOption (by decide +kernel))), trivial⟩, trivial⟩
  have hlayer : o.KeepsLayer := by
    intro name hname
    obtain rfl : "base.theme".toList = name := Option.some.inj hname
    exact ⟨⟨[], "layer".toList, [' '], "base.theme".toList, [' ']⟩,
      Sheet.parse_of_toOption (by decide +kernel)⟩
  exact ⟨s, hparse, hfirm, hheads, hlayer, parse_transformTree hparse hfirm hheads hlayer⟩

/-- A host tag that opens a bracket passes the check of the options, but the rule it is put into
cannot be read any more. -/
theorem parse_transformTree_open_bracket :
    let o : Options := { hostTag := ['('] }
    o.check = .ok () ∧
      Sheet.parse ":host([a])\x7bb:c\x7d".toList = .ok ⟨[.rule ⟨[], ":host([a])".toList, []⟩
        [.declaration ⟨[], ['b'], [':'], ['c'], []⟩] {}], {}⟩ ∧
      transformTree o ":host([a])\x7bb:c\x7d".toList = .ok "([a]\x7bb:c\x7d".toList ∧
      Sheet.parse "([a]\x7bb:c\x7d".toList =
        .error ⟨.unknownWord "([a]\x7bb:c\x7d".toList, ⟨1, 1⟩⟩ :=
  ⟨rfl, Sheet.parse_of_toOption (by decide +kernel), by decide +kernel, by decide +kernel⟩

end HostSheet
