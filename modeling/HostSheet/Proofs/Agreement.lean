import Mathlib
import HostSheet.Proofs.Hoisting
import HostSheet.Proofs.Frames
import HostSheet.TextMode

set_option autoImplicit false

/-!
# Where text and tree agree

A stylesheet in which no host block can be found, and in which the forms with `:host` are
found inside selectors only, is rewritten alike as a text and as a tree, up to the names
behind brackets: as a text they are remapped everywhere, as a tree in selectors only.
Remapping the result of the one gives the result of the other.
-/

namespace HostSheet

open Text

namespace Node

/-! ## Stylesheets without host rules -/

theorem isSpace_of_isBlank {c : Char} (h : Syntax.isBlank c = true) : isSpace c = true := by
  simp only [Syntax.isBlank, Bool.or_eq_true, beq_iff_eq] at h
  rcases h with (((rfl | rfl) | rfl) | rfl) | rfl <;> decide

/-- The selector of a host rule is `:host` with white space around it. -/
theorem exists_append_of_isHostOnly {t : Text} (h : Selector.isHostOnly t = true) :
    ∃ u v, t = u ++ (hostSelector ++ v) ∧ (∀ c ∈ u, isSpace c = true) ∧
      ∀ c ∈ v, isSpace c = true := by
  have htrim : trim t = hostSelector := by
    simpa [Selector.isHostOnly] using h
  have hstart : t = t.takeWhile isSpace ++ dropStart isSpace t :=
    List.takeWhile_append_dropWhile.symm
  have hend : dropStart isSpace t = hostSelector ++ takeEnd isSpace (dropStart isSpace t) := by
    rw [← htrim, trim, dropEnd_append_takeEnd]
  refine ⟨t.takeWhile isSpace, takeEnd isSpace (dropStart isSpace t), ?_,
    fun c hc => List.mem_takeWhile_imp hc, ?_⟩
  · rw [← hend]
    exact hstart
  · intro c hc
    rw [takeEnd, List.mem_reverse] at hc
    exact List.mem_takeWhile_imp hc

/-- The text of a host rule holds a host block. -/
theorem matchesIn_print_of_isHost {head : RuleHead} {nodes : List Node} {ending : Ending}
    (hhost : Selector.isHostOnly head.selector = true) (hgap : IsGap head.between)
    (terminated : Bool) :
    HostBlock.block.matchesIn ((rule head nodes ending).print terminated) = true := by
  obtain ⟨u, v, hselector, _, hv⟩ := exists_append_of_isHostOnly hhost
  have hspace : ∀ c ∈ v ++ head.between, isSpace c = true := by
    intro c hc
    rcases List.mem_append.1 hc with hc | hc
    · exact hv c hc
    · exact isSpace_of_isBlank (hgap c hc)
  refine Pattern.matchesIn_iff.2 ⟨head.before ++ u, hostSelector ++ (v ++ head.between) ++
      '\x7b' :: (printAll ending.terminated nodes ++ ending.after ++ ['\x7d']), ?_, by
        simp [hostSelector], HostBlock.isSome_readBlock hspace (by simp)⟩
  rw [print, RuleHead.print, hselector]
  simp

/-- Where no host block is found in the text of nodes, no node is a host rule. -/
theorem everyIn_isHost_eq_false {terminated : Bool} {ns : List Node}
    (hgaps : EveryIn HasGaps ns)
    (h : HostBlock.block.matchesIn (printAll terminated ns) = false) :
    EveryIn (·.isHost = false) ns := by
  have hlocal := HostBlock.isLocal_block
  have key : (∀ n : Node, ∀ terminated, Every HasGaps n →
        HostBlock.block.matchesIn (n.print terminated) = false → Every (·.isHost = false) n) ∧
      ∀ ns : List Node, ∀ terminated, EveryIn HasGaps ns →
        HostBlock.block.matchesIn (printAll terminated ns) = false →
        EveryIn (·.isHost = false) ns := by
    refine induction ?rule ?atBlock ?leaf ?nil ?cons
    case rule =>
      intro head nodes ending ih terminated hgaps h
      obtain ⟨⟨_, hgap, _⟩, hnodes⟩ := hgaps
      refine ⟨?_, ih ending.terminated hnodes ?_⟩
      · cases hhost : Selector.isHostOnly head.selector with
        | false => exact hhost
        | true => rw [matchesIn_print_of_isHost hhost hgap] at h; cases h
      · rw [print] at h
        exact hlocal.matchesIn_eq_false (u := head.print ++ ['\x7b'])
          (w := ending.after ++ ['\x7d']) (by simpa using h)
    case atBlock =>
      intro head nodes ending ih terminated hgaps h
      refine ⟨rfl, ih ending.terminated hgaps.2 ?_⟩
      rw [print] at h
      exact hlocal.matchesIn_eq_false (u := head.print ++ ['\x7b'])
        (w := ending.after ++ ['\x7d']) (by simpa using h)
    case leaf =>
      intro n hn terminated _ _
      rw [every_of_children?_eq_none hn]
      cases n with
      | rule head nodes ending => cases hn
      | atBlock head nodes ending => cases hn
      | atStatement head ending => rfl
      | declaration d => rfl
      | comment c => rfl
    case nil =>
      intro terminated _ _
      trivial
    case cons =>
      intro n ns hn hns terminated hgaps h
      rw [printAll] at h
      exact ⟨hn _ hgaps.1 (hlocal.matchesIn_eq_false (u := [])
          (w := printAll terminated ns) h),
        hns terminated hgaps.2 (hlocal.matchesIn_eq_false (w := []) (by simpa using h))⟩
  exact key.2 ns terminated hgaps h

/-- Without host rules, rewriting nodes changes their selectors only. -/
theorem transformNodes_eq_mapSelectorsIn {o : Options} {ns : List Node}
    (h : EveryIn (·.isHost = false) ns) (terminated : Bool) :
    TreeMode.transformNodes o ns terminated =
      (mapSelectorsIn (TreeMode.rewriteRuleSelector o) ns, terminated) := by
  have key : (∀ n : Node, Every (·.isHost = false) n →
        TreeMode.transformNode o n = n.mapSelectors (TreeMode.rewriteRuleSelector o)) ∧
      ∀ ns : List Node, EveryIn (·.isHost = false) ns → ∀ terminated,
        TreeMode.transformNodes o ns terminated =
          (mapSelectorsIn (TreeMode.rewriteRuleSelector o) ns, terminated) := by
    refine induction ?rule ?atBlock ?leaf ?nil ?cons
    case rule | atBlock =>
      intro head nodes ending ih h
      rw [TreeMode.transformNode, mapSelectors, ih h.2]
    case leaf =>
      intro n hn _
      rw [TreeMode.transformNode_of_children?_eq_none hn, mapSelectors_of_children?_eq_none hn]
    case nil =>
      intro _ terminated
      rw [TreeMode.transformNodes, mapSelectorsIn]
    case cons =>
      intro n ns hn hns h terminated
      have hhost : n.isHost = false := by
        obtain ⟨hn', _⟩ := h
        cases n with
        | rule head nodes ending => exact hn'.1
        | _ => rfl
      rw [TreeMode.transformNodes_cons hhost, hn h.1, hns h.2, mapSelectorsIn]
  exact key.2 ns h terminated

theorem mapDeclarationsIn_of_eq_self {f : Declaration → Declaration} {ns : List Node}
    (h : ∀ d ∈ declarationsIn ns, f d = d) : mapDeclarationsIn f ns = ns := by
  have key : (∀ n : Node, (∀ d ∈ n.declarations, f d = d) → n.mapDeclarations f = n) ∧
      ∀ ns : List Node, (∀ d ∈ declarationsIn ns, f d = d) → mapDeclarationsIn f ns = ns := by
    refine induction ?rule ?atBlock ?leaf ?nil ?cons
    case rule | atBlock =>
      intro head nodes ending ih h
      rw [declarations] at h
      rw [mapDeclarations, ih h]
    case leaf =>
      intro n hn h
      cases n with
      | rule head nodes ending => cases hn
      | atBlock head nodes ending => cases hn
      | atStatement head ending => simp [mapDeclarations]
      | declaration d =>
        rw [declarations] at h
        rw [mapDeclarations, h d List.mem_cons_self]
      | comment c => simp [mapDeclarations]
    case nil =>
      intro _
      rfl
    case cons =>
      intro n ns hn hns h
      rw [declarationsIn] at h
      rw [mapDeclarationsIn, hn fun d hd => h d (List.mem_append_left _ hd),
        hns fun d hd => h d (List.mem_append_right _ hd)]
  exact key.2 ns h

theorem declarationsIn_mapSelectorsIn (f : Text → Text) (ns : List Node) :
    declarationsIn (mapSelectorsIn f ns) = declarationsIn ns := by
  have key : (∀ n : Node, (n.mapSelectors f).declarations = n.declarations) ∧
      ∀ ns : List Node, declarationsIn (mapSelectorsIn f ns) = declarationsIn ns := by
    refine induction ?rule ?atBlock ?leaf ?nil ?cons
    case rule | atBlock =>
      intro head nodes ending ih
      rw [mapSelectors, declarations, declarations, ih]
    case leaf =>
      intro n hn
      rw [mapSelectors_of_children?_eq_none hn]
    case nil => rfl
    case cons =>
      intro n ns hn hns
      rw [mapSelectorsIn, declarationsIn, declarationsIn, hn, hns]
  exact key.2 ns

end Node

/-- Without host rules and empty lines, rewriting a stylesheet changes its selectors
only. -/
theorem Sheet.transform_eq_mapSelectors {o : Options} {s : Sheet}
    (hhost : Node.EveryIn (·.isHost = false) s.nodes)
    (hgaps : ∀ d ∈ s.declarations, occursIn ['\n', '\n'] d.before = false) :
    s.transform o = s.mapSelectors (TreeMode.rewriteRuleSelector o) := by
  have hsame : ∀ d ∈ Node.declarationsIn
      (Node.mapSelectorsIn (TreeMode.rewriteRuleSelector o) s.nodes),
      TreeMode.shrinkGap d = d := by
    intro d hd
    rw [Node.declarationsIn_mapSelectorsIn] at hd
    rw [TreeMode.shrinkGap, TreeMode.withoutEmptyLine, hgaps d hd, if_neg (by simp)]
  rw [transform, Node.transformNodes_eq_mapSelectorsIn hhost, mapDeclarations,
    Node.mapDeclarationsIn_of_eq_self hsame]
  rfl

namespace TreeMode

/-! ## One selector -/

/-- A selector that neither form with `:host` is in stays as it is or is remapped; one that
has either is rewritten by the two forms alone. -/
theorem rewriteRuleSelector_cases (o : Options) (selector : Text) :
    rewriteRuleSelector o selector = (Selector.rewriteHost o selector).text ∨
      (Selector.rewriteHost o selector).text = selector ∧
        rewriteRuleSelector o selector = (Selector.remapAttributes o selector).text := by
  unfold rewriteRuleSelector
  cases hmentions : Selector.mentionsHost selector with
  | true =>
    rw [if_pos rfl, Selector.rewrite, Rewritten.orElse]
    cases hmatched : (Selector.rewriteHost o selector).matched with
    | true => exact .inl rfl
    | false => exact .inr ⟨Selector.text_rewriteHost_of_matched_eq_false hmatched, rfl⟩
  | false =>
    have hsame : (Selector.rewriteHost o selector).text = selector := by
      rw [Selector.rewriteHost_of_mentionsHost_eq_false hmentions]
      rfl
    rw [if_neg (by simp)]
    split
    · exact .inr ⟨hsame, rfl⟩
    · exact .inl hsame.symm

/-- Remapped again, a selector is the same whether it was rewritten by the two forms with
`:host` only or as a rule's selector is. -/
theorem remapAttributes_rewriteRuleSelector (o : Options) (selector : Text) :
    (Selector.remapAttributes o (rewriteRuleSelector o selector)).text =
      (Selector.remapAttributes o (Selector.rewriteHost o selector).text).text := by
  rcases rewriteRuleSelector_cases o selector with h | ⟨hsame, h⟩
  · rw [h]
  · rw [h, hsame, Selector.remapAttributes]
    split
    · rw [Selector.remapAttributes, if_pos (by assumption), Selector.remapNames_remapNames]
    · rfl

end TreeMode

/-! ## The whole text -/

namespace Sheet

/-- The two forms with `:host`, matching in selectors only, rewrite the text of a
stylesheet selector by selector. -/
theorem rewriteHost_print {o : Options} {s : Sheet}
    (hfunction : InSelectors ((Selector.hostFunction o).spans s.print) s.selectorSpans)
    (hdescendant : InSelectors
      ((Selector.hostDescendant o).spans ((Selector.hostFunction o).replaceAll s.print))
      (s.mapSelectors (Selector.hostFunction o).replaceAll).selectorSpans) :
    (Selector.rewriteHost o s.print).text =
      (s.mapSelectors fun t => (Selector.rewriteHost o t).text).print := by
  have hfirst := replaceAll_print (Selector.isLocal_hostFunction o) hfunction
  rw [hfirst] at hdescendant
  have hsecond := replaceAll_print (Selector.isLocal_hostDescendant o) hdescendant
  calc (Selector.rewriteHost o s.print).text
      = (Selector.hostDescendant o).replaceAll
          ((Selector.hostFunction o).replaceAll s.print) := rfl
    _ = ((s.mapSelectors (Selector.hostFunction o).replaceAll).mapSelectors
          (Selector.hostDescendant o).replaceAll).print := by rw [hfirst, hsecond]
    _ = (s.mapSelectors fun t => (Selector.rewriteHost o t).text).print := by
        rw [← textOf_pieces, ← textOf_pieces, pieces_mapSelectors, pieces_mapSelectors,
          pieces_mapSelectors, List.map_map]
        congr 2
        funext piece
        cases piece <;> rfl

/-- Remapping a whole text comes to the same whether its selectors were rewritten by the
two forms with `:host` only or as a rule's selector is. -/
theorem remapAttributes_print {o : Options} {s : Sheet}
    (hgaps : Node.EveryIn Node.HasGaps s.nodes) :
    (Selector.remapAttributes o
        (s.mapSelectors fun t => (Selector.rewriteHost o t).text).print).text =
      (Selector.remapAttributes o
        (s.mapSelectors (TreeMode.rewriteRuleSelector o)).print).text := by
  rw [← textOf_pieces, ← textOf_pieces, pieces_mapSelectors, pieces_mapSelectors]
  cases hdata : o.dataAttributes with
  | true =>
    have hframed : Framed [] s.pieces :=
      Node.framed_piecesIn hgaps (.inl nofun) fun v => .plain (.nil _)
    have hselector : ∀ t, (Selector.remapNames o.excluded (Selector.rewriteHost o t).text).text =
        (Selector.remapNames o.excluded (TreeMode.rewriteRuleSelector o t)).text := by
      intro t
      have := TreeMode.remapAttributes_rewriteRuleSelector o t
      rw [Selector.remapAttributes, Selector.remapAttributes, hdata] at this
      exact this.symm
    rw [Selector.remapAttributes, Selector.remapAttributes, hdata]
    exact hframed.remapNames_eq hselector
  | false =>
    have hselector : (fun t => (Selector.rewriteHost o t).text) =
        TreeMode.rewriteRuleSelector o := by
      funext t
      have := TreeMode.remapAttributes_rewriteRuleSelector o t
      rw [Selector.remapAttributes, Selector.remapAttributes, hdata] at this
      exact this.symm
    rw [hselector]

end Sheet

/-- Rewriting a stylesheet as a text gives what rewriting it as a tree gives, with the names
behind brackets remapped everywhere, if

* no host block is found in the text,
* no declaration has an empty line in its gap,
* `:host(argument)` is found in selectors only, and
* so is, in what replacing it leaves, `:host [content]`.

Where attributes stay as they are, the two results are the same. -/
theorem transformText_eq_transformTree {o : Options} {css : Text} {s : Sheet}
    (hlayer : o.layer = none) (hparse : Sheet.parse css = .ok s)
    (hblock : HostBlock.block.matchesIn css = false)
    (hgaps : ∀ d ∈ s.declarations, occursIn ['\n', '\n'] d.before = false)
    (hfunction : InSelectors ((Selector.hostFunction o).spans css) s.selectorSpans)
    (hdescendant : InSelectors
      ((Selector.hostDescendant o).spans ((Selector.hostFunction o).replaceAll css))
      (s.mapSelectors (Selector.hostFunction o).replaceAll).selectorSpans) :
    ∃ out, transformTree o css = .ok out ∧
      transformText o css = (Selector.remapAttributes o out).text ∧
      (o.dataAttributes = false → transformText o css = out) := by
  obtain ⟨r, hrun, hfinish⟩ := Sheet.run_of_parse hparse
  have hprint : s.print = css := Sheet.print_of_run hrun hfinish
  have hall := Sheet.hasGaps_of_parse hparse
  subst hprint
  have hhost : Node.EveryIn (·.isHost = false) s.nodes :=
    Node.everyIn_isHost_eq_false hall.1
      (HostBlock.isLocal_block.matchesIn_eq_false (u := []) hblock)
  have htree : transformTree o s.print =
      .ok (s.mapSelectors (TreeMode.rewriteRuleSelector o)).print := by
    rw [transformTree, hparse, ← Sheet.transform_eq_mapSelectors hhost hgaps, hlayer]
    rfl
  have htext : transformText o s.print = (Selector.remapAttributes o
      (s.mapSelectors (TreeMode.rewriteRuleSelector o)).print).text := by
    have hunwrap : (HostBlock.unwrap s.print).text = s.print :=
      Pattern.replaceAll_of_matchesIn_eq_false hblock
    rw [transformText, rewriteText, hlayer, hunwrap, Sheet.rewriteHost_print hfunction hdescendant,
      Sheet.remapAttributes_print hall.1]
    rfl
  refine ⟨_, htree, htext, ?_⟩
  intro hdata
  rw [htext, Selector.remapAttributes, hdata]
  rfl

/-- Both forms with `:host`, and a bracket in a value, which only the text mode remaps. -/
theorem transformText_eq_transformTree_brackets :
    HostBlock.block.matchesIn ":host([a])>b\x7bc:[d]\x7d:host [e]\x7b\x7d".toList = false ∧
      ∃ out, transformTree { dataAttributes := true }
          ":host([a])>b\x7bc:[d]\x7d:host [e]\x7b\x7d".toList = .ok out ∧
        transformText { dataAttributes := true }
            ":host([a])>b\x7bc:[d]\x7d:host [e]\x7b\x7d".toList =
          (Selector.remapAttributes { dataAttributes := true } out).text ∧
        (({ dataAttributes := true } : Options).dataAttributes = false →
          transformText { dataAttributes := true }
            ":host([a])>b\x7bc:[d]\x7d:host [e]\x7b\x7d".toList = out) := by
  have hparse : Sheet.parse ":host([a])>b\x7bc:[d]\x7d:host [e]\x7b\x7d".toList =
      .ok ⟨[.rule ⟨[], ":host([a])>b".toList, []⟩
              [.declaration ⟨[], ['c'], [':'], "[d]".toList, []⟩] {},
            .rule ⟨[], ":host [e]".toList, []⟩ [] {}], {}⟩ :=
    Sheet.parse_of_toOption (by decide +kernel)
  have hblock : HostBlock.block.matchesIn
      ":host([a])>b\x7bc:[d]\x7d:host [e]\x7b\x7d".toList = false := by decide +kernel
  refine ⟨hblock, transformText_eq_transformTree rfl hparse hblock ?_ ?_ ?_⟩
  · decide +kernel
  · unfold InSelectors
    decide +kernel
  · unfold InSelectors
    decide +kernel

end HostSheet
