import Mathlib
import HostSheet.Proofs.Agreement
import HostSheet.Proofs.Brackets
import HostSheet.Proofs.Reprinting

set_option autoImplicit false

/-!
# Rewriting what was rewritten

A rewritten stylesheet has no host rules and no empty lines, so rewriting it again could only
change its selectors.  Selectors that a form with `:host` was found in are up to the options: the
host tag may itself be `:host`.  All others are final.  They were remapped or left alone, and what
remapping puts in stands behind a bracket, where it can neither complete a form with `:host` nor
tear one apart (`Marked`).  So rewriting is stable where the forms with `:host` are
(`Sheet.transform_transform`).
-/

namespace HostSheet

open Text

namespace Selector

/-! ## Texts with marks put in -/

/-- The second text is the first, with `data-` put in behind some of its brackets. -/
inductive Marked : Text → Text → Prop
  | nil : Marked [] []
  | cons (c : Char) {x y : Text} (h : Marked x y) : Marked (c :: x) (c :: y)
  | mark {x y : Text} (h : Marked x y) : Marked ('[' :: x) ('[' :: (Attribute.dataMark ++ y))

namespace Marked

variable {x y v w : Text} {c : Char}

theorem mem (h : Marked x y) (hc : c ∉ Attribute.dataMark) (hy : c ∈ y) : c ∈ x := by
  induction h with
  | nil => exact hy
  | cons a h ih =>
    rcases List.mem_cons.1 hy with rfl | hy
    · exact List.mem_cons_self
    · exact List.mem_cons_of_mem _ (ih hy)
  | mark h ih =>
    rcases List.mem_cons.1 hy with rfl | hy
    · exact List.mem_cons_self
    · exact List.mem_cons_of_mem _ (ih ((List.mem_append.1 hy).resolve_left hc))

theorem eq_of_not_mem (h : Marked x y) (hy : '[' ∉ y) : x = y := by
  induction h with
  | nil => rfl
  | cons a h ih => rw [ih fun hm => hy (List.mem_cons_of_mem _ hm)]
  | mark h ih => exact absurd List.mem_cons_self hy

/-- In front of a character that is not in the mark the text can be cut. -/
theorem cut {u : Text} (h : Marked x (u ++ c :: v)) (hc : c ∉ Attribute.dataMark) :
    ∃ u' v', x = u' ++ v' ∧ Marked v' (c :: v) := by
  generalize hy : u ++ c :: v = y at h
  induction h generalizing u with
  | nil => exact absurd hy (by simp)
  | @cons a x y h ih =>
    cases u with
    | nil =>
      obtain ⟨rfl, rfl⟩ := List.cons.inj hy
      exact ⟨[], c :: x, rfl, .cons c h⟩
    | cons b u =>
      obtain ⟨u', v', rfl, hv'⟩ := ih (List.cons.inj hy).2
      exact ⟨a :: u', v', rfl, hv'⟩
  | @mark x y h ih =>
    cases u with
    | nil =>
      obtain ⟨rfl, rfl⟩ := List.cons.inj hy
      exact ⟨[], '[' :: x, rfl, .mark h⟩
    | cons b u =>
      obtain ⟨z, hz, hrest⟩ | ⟨z, rfl, hrest⟩ :=
        List.append_eq_append_iff.1 (List.cons.inj hy).2
      · cases z with
        | nil =>
          obtain ⟨u', v', rfl, hv'⟩ := ih (u := []) hrest
          exact ⟨'[' :: u', v', rfl, hv'⟩
        | cons a z =>
          obtain ⟨rfl, _⟩ := List.cons.inj hrest
          exact absurd (hz ▸ List.mem_append_right u List.mem_cons_self) hc
      · obtain ⟨u', v', rfl, hv'⟩ := ih hrest.symm
        exact ⟨'[' :: u', v', rfl, hv'⟩

/-- No mark is put into a text without brackets. -/
theorem of_append {m : Text} (h : Marked x (m ++ y)) (hm : '[' ∉ m) :
    ∃ x', x = m ++ x' ∧ Marked x' y := by
  induction m generalizing x with
  | nil => exact ⟨x, rfl, h⟩
  | cons a m ih =>
    rw [List.mem_cons, not_or] at hm
    generalize hz : a :: m ++ y = z at h
    cases h with
    | nil => cases hz
    | cons b h =>
      obtain ⟨rfl, rfl⟩ := List.cons.inj hz
      obtain ⟨x', rfl, hx'⟩ := ih h hm.2
      exact ⟨x', rfl, hx'⟩
    | mark h => exact absurd (List.cons.inj hz).1.symm hm.1

/-- What stands in the marked text and does not end in a mark stands in the text. -/
theorem exists_append {u m : Text} (h : Marked x (u ++ c :: (m ++ y)))
    (hc : c ∉ Attribute.dataMark) (hm : '[' ∉ c :: m) :
    ∃ u' y', x = u' ++ c :: (m ++ y') ∧ Marked y' y := by
  obtain ⟨u', v', rfl, hv'⟩ := h.cut hc
  obtain ⟨y', rfl, hy'⟩ := of_append (m := c :: m) hv' hm
  exact ⟨u', y', rfl, hy'⟩

theorem length_le (h : Marked x y) : x.length ≤ y.length := by
  induction h with
  | nil => exact le_rfl
  | cons c h ih => simpa using ih
  | mark h ih => simp only [List.length_cons, List.length_append]; omega

theorem of_bracket (h : Marked x ('[' :: y)) :
    ∃ x', x = '[' :: x' ∧ ∀ c, c ∉ Attribute.dataMark → c ∈ y → c ∈ x' := by
  cases h with
  | cons _ h => exact ⟨_, rfl, fun c hc hy => h.mem hc hy⟩
  | mark h => exact ⟨_, rfl, fun c hc hy => h.mem hc ((List.mem_append.1 hy).resolve_left hc)⟩

end Marked

theorem marked_insertMarks (exclude : List Text) (s : Text) :
    Marked s (insertMarks exclude s) := by
  induction s with
  | nil => exact .nil
  | cons c r ih =>
    by_cases h : c = '[' ∧ TakesMark exclude r
    · obtain ⟨rfl, htakes⟩ := h
      rw [insertMarks_of_takesMark htakes]
      exact ih.mark
    · rw [insertMarks_cons h]
      exact ih.cons c

theorem marked_remapNames (exclude : List Text) (s : Text) :
    Marked s (remapNames exclude s).text := by
  rw [text_remapNames]
  exact marked_insertMarks exclude s

/-! ## Marks and the forms with `:host` -/

theorem isSome_readHostFunction_iff {o : Options} {s : Text} :
    (readHostFunction o s).isSome = true ↔ ∃ r, s = hostSelector ++ '(' :: r ∧ ')' ∈ r := by
  constructor
  · intro h
    obtain ⟨⟨out, rest⟩, h⟩ := Option.isSome_iff_exists.1 h
    obtain ⟨argument, rfl, _⟩ := readHostFunction_eq_some_iff.1 h
    exact ⟨argument ++ ')' :: rest, by simp, by simp⟩
  · rintro ⟨r, rfl, hr⟩
    obtain ⟨argument, rest, rfl, hn⟩ := List.eq_append_cons_of_mem hr
    exact Option.isSome_iff_exists.2 ⟨(_, rest),
      readHostFunction_eq_some_iff.2 ⟨argument, by simp, hn, rfl⟩⟩

theorem isSome_readHostDescendant_iff {o : Options} {s : Text} :
    (readHostDescendant o s).isSome = true ↔ ∃ space r, s = hostSelector ++ space ++ '[' :: r ∧
      space ≠ [] ∧ (∀ c ∈ space, isSpace c = true) ∧ ']' ∈ r := by
  constructor
  · intro h
    obtain ⟨⟨out, rest⟩, h⟩ := Option.isSome_iff_exists.1 h
    obtain ⟨space, content, rfl, hne, hspace, _⟩ := readHostDescendant_eq_some_iff.1 h
    exact ⟨space, content ++ ']' :: rest, by simp, hne, hspace, by simp⟩
  · rintro ⟨space, r, rfl, hne, hspace, hr⟩
    obtain ⟨content, rest, rfl, hn⟩ := List.eq_append_cons_of_mem hr
    exact Option.isSome_iff_exists.2 ⟨(_, rest),
      readHostDescendant_eq_some_iff.2 ⟨space, content, by simp, hne, hspace, hn, rfl⟩⟩

/-- Either form is found by one look at the text: where the first is not found, it leaves the text
as it is. -/
theorem matched_rewriteHost_iff {o : Options} {s : Text} :
    (rewriteHost o s).matched = true ↔
      (hostFunction o).matchesIn s = true ∨ (hostDescendant o).matchesIn s = true := by
  simp only [rewriteHost, Pattern.rewrite, Rewritten.andThen, Bool.or_eq_true]
  cases hfunction : (hostFunction o).matchesIn s with
  | true => simp
  | false => rw [Pattern.replaceAll_of_matchesIn_eq_false hfunction]

/-- Marks do not complete a form with `:host`. -/
theorem Marked.matched_rewriteHost {o : Options} {x y : Text} (h : Marked x y)
    (hy : (rewriteHost o y).matched = true) : (rewriteHost o x).matched = true := by
  refine matched_rewriteHost_iff.2 ((matched_rewriteHost_iff.1 hy).imp ?_ ?_)
  · intro hfunction
    obtain ⟨u, v, rfl, _, hread⟩ := Pattern.matchesIn_iff.1 hfunction
    obtain ⟨r, rfl, hr⟩ := isSome_readHostFunction_iff.1 hread
    obtain ⟨u', r', rfl, hr'⟩ := exists_append (c := ':') (m := "host(".toList) h (by decide)
      (by decide)
    exact Pattern.matchesIn_iff.2 ⟨u', hostSelector ++ '(' :: r', rfl, by simp [hostSelector],
      isSome_readHostFunction_iff.2 ⟨r', rfl, hr'.mem (by decide) hr⟩⟩
  · intro hdescendant
    obtain ⟨u, v, rfl, _, hread⟩ := Pattern.matchesIn_iff.1 hdescendant
    obtain ⟨space, r, rfl, hne, hspace, hr⟩ := isSome_readHostDescendant_iff.1 hread
    have hbracket : '[' ∉ ':' :: ("host".toList ++ space) := by
      intro hm
      rcases List.mem_append.1 (show '[' ∈ hostSelector ++ space from hm) with hm | hm
      · revert hm
        decide
      · cases hspace _ hm
    rw [List.append_assoc] at h
    obtain ⟨u', v', rfl, hv'⟩ := exists_append (c := ':') (m := "host".toList ++ space)
      (y := '[' :: r) (by simpa [hostSelector] using h) (by decide) hbracket
    obtain ⟨r', rfl, hmem⟩ := hv'.of_bracket
    refine Pattern.matchesIn_iff.2 ⟨u', hostSelector ++ space ++ '[' :: r', by simp [hostSelector],
      by simp [hostSelector], isSome_readHostDescendant_iff.2 ⟨space, r', rfl, hne, hspace, ?_⟩⟩
    exact hmem _ (by decide) hr

/-- Marks do not make a selector one for `:host` alone. -/
theorem Marked.isHostOnly {x y : Text} (h : Marked x y) (hx : isHostOnly x = false) :
    isHostOnly y = false := by
  cases hy : Selector.isHostOnly y with
  | false => rfl
  | true =>
    have hnone : '[' ∉ y := by
      obtain ⟨u, v, rfl, hu, hv⟩ := Node.exists_append_of_isHostOnly hy
      intro hm
      rcases List.mem_append.1 hm with hm | hm
      · cases hu _ hm
      rcases List.mem_append.1 hm with hm | hm
      · revert hm
        decide
      · cases hv _ hm
    rw [h.eq_of_not_mem hnone, hy] at hx
    cases hx

theorem isHostOnly_of_mentionsHost_eq_false {s : Text} (h : mentionsHost s = false) :
    isHostOnly s = false := by
  cases hs : isHostOnly s with
  | false => rfl
  | true =>
    obtain ⟨u, v, rfl, _⟩ := Node.exists_append_of_isHostOnly hs
    rw [← h, mentionsHost, eq_comm, occursIn_iff]
    exact ⟨u, v, List.append_assoc _ _ _⟩

/-! ## Final names -/

/-- The plain names that follow a bracket. -/
def bracketedNames : Text → List Text
  | [] => []
  | c :: r =>
    (if c = '[' then ((splitName? r).map Prod.fst).toList else []) ++ bracketedNames r

theorem mem_bracketedNames_append {name : Text} (u : Text) {v : Text}
    (h : name ∈ bracketedNames v) : name ∈ bracketedNames (u ++ v) := by
  induction u with
  | nil => exact h
  | cons c u ih => exact List.mem_append_right _ ih

/-- Remapping leaves a text alone if and only if every name behind a bracket is final. -/
theorem remapNames_eq_self_iff {exclude : List Text} {s : Text} :
    (remapNames exclude s).text = s ↔
      ∀ name ∈ bracketedNames s, Attribute.isFinal name exclude = true := by
  rw [text_remapNames]
  induction s with
  | nil => exact iff_of_true rfl nofun
  | cons c r ih =>
    have hplace : (∀ name ∈ if c = '[' then ((splitName? r).map Prod.fst).toList else [],
        Attribute.isFinal name exclude = true) ↔ ¬(c = '[' ∧ TakesMark exclude r) := by
      by_cases hc : c = '[' <;> simp [hc, takesMark_iff]
    rw [bracketedNames, List.forall_mem_append, hplace]
    by_cases h : c = '[' ∧ TakesMark exclude r
    · -- The mark makes the text longer, whatever the rest turns into.
      refine iff_of_false (fun hsame => ?_) fun hfinal => hfinal.1 h
      obtain ⟨rfl, htakes⟩ := h
      have hlength := congrArg List.length hsame
      have hle := (marked_insertMarks exclude r).length_le
      rw [insertMarks_of_takesMark htakes] at hlength
      simp only [List.length_cons, List.length_append, Attribute.dataMark, List.length_nil]
        at hlength
      omega
    · rw [insertMarks_cons h, List.cons_inj_right, ih]
      exact (and_iff_right h).symm

end Selector

namespace TreeMode

/-! ## Selectors that are final -/

/-- A selector stays as it is if neither form with `:host` is in it and remapping does not change
it. -/
theorem rewriteRuleSelector_of_remapAttributes {o : Options} {y : Text}
    (hmatched : (Selector.rewriteHost o y).matched = false)
    (hremap : (Selector.remapAttributes o y).text = y) : rewriteRuleSelector o y = y := by
  unfold rewriteRuleSelector
  split
  · rw [Selector.rewrite, Rewritten.orElse, hmatched]
    exact hremap
  · split
    · exact hremap
    · rfl

/-- What `:host` forms leave in a selector is final: no `:host`, and no name that is still to
remap. -/
def IsSettled (o : Options) (selector : Text) : Prop :=
  (Selector.rewriteHost o selector).matched = true →
    Selector.mentionsHost (Selector.rewriteHost o selector).text = false ∧
      (o.dataAttributes = true →
        ∀ name ∈ Selector.bracketedNames (Selector.rewriteHost o selector).text,
          Attribute.isFinal name o.excluded = true)

instance (o : Options) (selector : Text) : Decidable (IsSettled o selector) :=
  inferInstanceAs (Decidable ((Selector.rewriteHost o selector).matched = true →
    Selector.mentionsHost (Selector.rewriteHost o selector).text = false ∧
      (o.dataAttributes = true →
        ∀ name ∈ Selector.bracketedNames (Selector.rewriteHost o selector).text,
          Attribute.isFinal name o.excluded = true)))

/-- A selector that was rewritten is for no host rule, and it is final. -/
theorem rewriteRuleSelector_rewriteRuleSelector {o : Options} {x : Text} (h : IsSettled o x)
    (hx : Selector.isHostOnly x = false) :
    Selector.isHostOnly (rewriteRuleSelector o x) = false ∧
      rewriteRuleSelector o (rewriteRuleSelector o x) = rewriteRuleSelector o x := by
  have hremapped : (Selector.rewriteHost o x).matched = false →
      Selector.isHostOnly (Selector.remapAttributes o x).text = false ∧
        rewriteRuleSelector o (Selector.remapAttributes o x).text =
          (Selector.remapAttributes o x).text := by
    intro hmatched
    cases hdata : o.dataAttributes with
    | false =>
      have hsame : ∀ y, (Selector.remapAttributes o y).text = y := by
        intro y
        rw [Selector.remapAttributes, hdata]
        rfl
      rw [hsame]
      exact ⟨hx, rewriteRuleSelector_of_remapAttributes hmatched (hsame x)⟩
    | true =>
      have hnames : ∀ y, Selector.remapAttributes o y = Selector.remapNames o.excluded y := by
        intro y
        rw [Selector.remapAttributes, hdata]
        rfl
      have hmarked := Selector.marked_remapNames o.excluded x
      rw [hnames]
      refine ⟨hmarked.isHostOnly hx, rewriteRuleSelector_of_remapAttributes ?_ ?_⟩
      · rw [← Bool.not_eq_true]
        intro hm
        rw [hmarked.matched_rewriteHost hm] at hmatched
        cases hmatched
      · rw [hnames, Selector.remapNames_remapNames]
  cases hmatched : (Selector.rewriteHost o x).matched with
  | true =>
    obtain ⟨hmentions, hnames⟩ := h hmatched
    have hy : rewriteRuleSelector o x = (Selector.rewriteHost o x).text := by
      unfold rewriteRuleSelector
      rw [Selector.rewrite, Rewritten.orElse, hmatched, if_pos rfl, if_pos]
      by_contra hx'
      rw [Selector.rewriteHost_of_mentionsHost_eq_false (by simpa using hx')] at hmatched
      cases hmatched
    rw [hy]
    refine ⟨Selector.isHostOnly_of_mentionsHost_eq_false hmentions,
      rewriteRuleSelector_of_remapAttributes ?_ ?_⟩
    · rw [Selector.rewriteHost_of_mentionsHost_eq_false hmentions]
      rfl
    · rw [Selector.remapAttributes]
      split
      · rename_i hdata
        exact Selector.remapNames_eq_self_iff.2 (hnames hdata)
      · rfl
  | false =>
    rcases rewriteRuleSelector_cases o x with hy | ⟨_, hy⟩
    · rw [Selector.text_rewriteHost_of_matched_eq_false hmatched] at hy
      rw [hy]
      exact ⟨hx, hy⟩
    · rw [hy]
      exact hremapped hmatched

end TreeMode

/-! ## Selectors and declarations of rewritten nodes -/

/-- The selector of a rule. -/
def Label.selector? : Label → Option Text
  | rule selector _ _ => some selector
  | _ => none

namespace Node

/-- The selectors in nodes are those of a listing. -/
theorem selectorsIn_eq_filterMap (above : List Label) (ns : List Node) :
    selectorsIn ns = (entriesIn above ns).filterMap (·.label.selector?) := by
  have key : (∀ n : Node, ∀ above,
        n.selectors = (n.entries above).filterMap (·.label.selector?)) ∧
      ∀ ns : List Node, ∀ above,
        selectorsIn ns = (entriesIn above ns).filterMap (·.label.selector?) := by
    refine induction ?rule ?atBlock ?leaf ?nil ?cons
    case rule =>
      intro head nodes ending ih above
      rw [selectors, entries_rule]
      exact congrArg (head.selector :: ·) (ih _)
    case atBlock =>
      intro head nodes ending ih above
      rw [selectors, entries_atBlock]
      exact ih _
    case leaf =>
      intro n hn above
      rw [entries_of_children?_eq_none hn]
      cases n with
      | rule head nodes ending => cases hn
      | atBlock head nodes ending => cases hn
      | _ => rfl
    case nil => exact fun _ => rfl
    case cons =>
      intro n ns hn hns above
      rw [selectorsIn, entriesIn, List.filterMap_append, ← hn, ← hns]
  exact key.2 ns above

theorem mapSelectorsIn_of_eq_self {f : Text → Text} {ns : List Node}
    (h : ∀ x ∈ selectorsIn ns, f x = x) : mapSelectorsIn f ns = ns := by
  have key : (∀ n : Node, (∀ x ∈ n.selectors, f x = x) → n.mapSelectors f = n) ∧
      ∀ ns : List Node, (∀ x ∈ selectorsIn ns, f x = x) → mapSelectorsIn f ns = ns := by
    refine induction ?rule ?atBlock ?leaf ?nil ?cons
    case rule =>
      intro head nodes ending ih h
      rw [selectors] at h
      rw [mapSelectors, h _ List.mem_cons_self, ih fun x hx => h x (List.mem_cons_of_mem _ hx)]
    case atBlock =>
      intro head nodes ending ih h
      rw [selectors] at h
      rw [mapSelectors, ih h]
    case leaf =>
      intro n hn _
      exact mapSelectors_of_children?_eq_none hn f
    case nil => exact fun _ => rfl
    case cons =>
      intro n ns hn hns h
      rw [selectorsIn] at h
      rw [mapSelectorsIn, hn fun x hx => h x (List.mem_append_left _ hx),
        hns fun x hx => h x (List.mem_append_right _ hx)]
  exact key.2 ns h

theorem declarationsIn_mapDeclarationsIn (f : Declaration → Declaration) (ns : List Node) :
    declarationsIn (mapDeclarationsIn f ns) = (declarationsIn ns).map f := by
  have key : (∀ n : Node, (n.mapDeclarations f).declarations = n.declarations.map f) ∧
      ∀ ns : List Node,
        declarationsIn (mapDeclarationsIn f ns) = (declarationsIn ns).map f := by
    refine induction ?rule ?atBlock ?leaf ?nil ?cons
    case rule | atBlock =>
      intro head nodes ending ih
      rw [mapDeclarations, declarations, declarations, ih]
    case leaf =>
      intro n hn
      cases n with
      | rule head nodes ending => cases hn
      | atBlock head nodes ending => cases hn
      | declaration d => simp only [mapDeclarations, declarations, List.map_cons, List.map_nil]
      | _ => simp only [mapDeclarations, declarations, List.map_nil]
    case nil => rfl
    case cons =>
      intro n ns hn hns
      rw [mapDeclarationsIn, declarationsIn, declarationsIn, hn, hns, List.map_append]
  exact key.2 ns

end Node

/-! ## Stylesheets -/

namespace Sheet

variable {o : Options} {s : Sheet}

/-- The selectors of a rewritten stylesheet are those of its rules that were no host rules,
rewritten. -/
theorem exists_of_mem_selectors_transform {y : Text} (h : y ∈ (s.transform o).selectors) :
    ∃ x ∈ s.selectors, Selector.isHostOnly x = false ∧ y = TreeMode.rewriteRuleSelector o x := by
  rw [selectors, Node.selectorsIn_eq_filterMap [], ← listing, listing_transform] at h
  obtain ⟨e', he', hy⟩ := List.mem_filterMap.1 h
  obtain ⟨e, he, rfl⟩ := List.mem_map.1 he'
  obtain ⟨he, hhost⟩ := List.mem_filter.1 he
  obtain ⟨above, l⟩ := e
  cases l with
  | rule x between after =>
    refine ⟨x, ?_, by simpa [Label.isHost] using hhost, (Option.some.inj hy).symm⟩
    rw [selectors, Node.selectorsIn_eq_filterMap []]
    exact List.mem_filterMap.2 ⟨_, he, rfl⟩
  | _ => cases hy

/-- No declaration of a rewritten stylesheet stands behind an empty line. -/
theorem occursIn_before_transform {d : Declaration} (h : d ∈ (s.transform o).declarations) :
    occursIn ['\n', '\n'] d.before = false := by
  rw [declarations, transform, mapDeclarations, Node.declarationsIn_mapDeclarationsIn] at h
  obtain ⟨d, _, rfl⟩ := List.mem_map.1 h
  rw [TreeMode.shrinkGap, TreeMode.withoutEmptyLine]
  cases hline : occursIn ['\n', '\n'] d.before with
  | true => rfl
  | false => exact hline

/-- Rewriting is stable where the forms with `:host` are: if every selector that one of them is
found in is rewritten to one without `:host` and with final names only, then the rewritten
stylesheet has no host rules and no declaration behind an empty line, and rewriting it again
changes nothing. -/
theorem transform_transform (h : ∀ x ∈ s.selectors, TreeMode.IsSettled o x) :
    (∀ y ∈ (s.transform o).selectors, Selector.isHostOnly y = false) ∧
      (∀ d ∈ (s.transform o).declarations, occursIn ['\n', '\n'] d.before = false) ∧
      (s.transform o).transform o = s.transform o := by
  have hselectors : ∀ y ∈ (s.transform o).selectors,
      Selector.isHostOnly y = false ∧ TreeMode.rewriteRuleSelector o y = y := by
    intro y hy
    obtain ⟨x, hx, hhost, rfl⟩ := exists_of_mem_selectors_transform hy
    exact TreeMode.rewriteRuleSelector_rewriteRuleSelector (h x hx) hhost
  have hlines : ∀ d ∈ (s.transform o).declarations, occursIn ['\n', '\n'] d.before = false :=
    fun d hd => occursIn_before_transform hd
  have hhosts : Node.EveryIn (·.isHost = false) (s.transform o).nodes := by
    have hrules := Node.everyIn_of_selectors fun y hy => (hselectors y hy).1
    refine Node.everyIn_imp₂ (fun n hn _ => ?_) hrules hrules
    cases n with
    | rule head nodes ending => exact hn head nodes ending rfl
    | _ => rfl
  refine ⟨fun y hy => (hselectors y hy).1, hlines, ?_⟩
  calc (s.transform o).transform o
      = (s.transform o).mapSelectors (TreeMode.rewriteRuleSelector o) :=
        transform_eq_mapSelectors hhosts hlines
    _ = s.transform o := by
        rw [mapSelectors, Node.mapSelectorsIn_of_eq_self fun y hy => (hselectors y hy).2]

/-- Both forms with `:host`, a third that neither reads, a bracket without `:host`, an excluded
name, and a host rule in a host rule behind an empty line. -/
theorem transform_transform_nested :
    ∃ (o : Options) (s : Sheet),
      parse ("\n\n:host\x7ba:b;:host \x7b\n\nc:d\x7d\x7d:host([e]) f\x7b\n\ng:h\x7d" ++
        ":host [i]\x7b\x7d:host-context([j])\x7b\x7d[k][l]\x7b\x7d").toList = .ok s ∧
      (∀ x ∈ s.selectors, TreeMode.IsSettled o x) ∧
      (s.transform o).print =
        ("\na:b;c:d;&[data-e] f\x7b\ng:h\x7d" ++
          "& [data-i]\x7b\x7d:host-context([data-j])\x7b\x7d[data-k][l]\x7b\x7d").toList ∧
      (∀ y ∈ (s.transform o).selectors, Selector.isHostOnly y = false) ∧
      (∀ d ∈ (s.transform o).declarations, occursIn ['\n', '\n'] d.before = false) ∧
      (s.transform o).transform o = s.transform o := by
  let o : Options := { dataAttributes := true, excludeFromData := some [['l']] }
  let s : Sheet := ⟨[.rule ⟨['\n', '\n'], ":host".toList, []⟩
      [.declaration ⟨[], ['a'], [':'], ['b'], []⟩, .rule ⟨[], ":host".toList, [' ']⟩
        [.declaration ⟨['\n', '\n'], ['c'], [':'], ['d'], []⟩] {}] {},
    .rule ⟨[], ":host([e]) f".toList, []⟩
      [.declaration ⟨['\n', '\n'], ['g'], [':'], ['h'], []⟩] {},
    .rule ⟨[], ":host [i]".toList, []⟩ [] {}, .rule ⟨[], ":host-context([j])".toList, []⟩ [] {},
    .rule ⟨[], "[k][l]".toList, []⟩ [] {}], {}⟩
  have hsettled : ∀ x ∈ s.selectors, TreeMode.IsSettled o x := by decide +kernel
  exact ⟨o, s, parse_of_toOption (by decide +kernel), hsettled, by decide +kernel,
    transform_transform hsettled⟩

end Sheet

end HostSheet
