import Mathlib
import HostSheet.Proofs.Listing

set_option autoImplicit false

/-!
# What rewriting keeps of a tree

Rewriting a tree takes its host rules away and puts their nodes in their places.  The
loop that does so looks at the replaced nodes again, so a host rule in a host rule goes as
well.  Nothing else is lost, doubled or moved: the listing of the result is the listing of
the tree without the entries of host rules, and without their labels among the ancestors.
-/

namespace HostSheet

namespace Node

/-- A rule for `:host` alone. -/
def isHost : Node → Bool
  | rule head _ _ => Selector.isHostOnly head.selector
  | _ => false

theorem isHost_label (n : Node) : n.label.isHost = n.isHost := by
  cases n <;> rfl

end Node

namespace TreeMode

/-! ## The recursion of the rewriting -/

theorem transformNode_of_children?_eq_none {o : Options} {n : Node}
    (h : n.children? = none) : transformNode o n = n := by
  cases n with
  | rule head nodes ending => cases h
  | atBlock head nodes ending => cases h
  | atStatement head ending => simp [transformNode]
  | declaration d => simp [transformNode]
  | comment c => simp [transformNode]

theorem transformNodes_host {o : Options} {head : RuleHead} {nodes rest : List Node}
    {ending : Ending} {terminated : Bool} (h : Selector.isHostOnly head.selector = true) :
    transformNodes o (.rule head nodes ending :: rest) terminated =
      transformNodes o (hoist head.before nodes ++ rest)
        (terminatedAfter rest nodes ending terminated) := by
  rw [transformNodes, if_pos h]

theorem transformNodes_cons {o : Options} {n : Node} {rest : List Node} {terminated : Bool}
    (h : n.isHost = false) :
    transformNodes o (n :: rest) terminated =
      (transformNode o n :: (transformNodes o rest terminated).1,
        (transformNodes o rest terminated).2) := by
  cases n with
  | rule head nodes ending => rw [transformNodes, if_neg (by simpa [Node.isHost] using h)]
  | atBlock head nodes ending => simp [transformNodes]
  | atStatement head ending => simp [transformNodes]
  | declaration d => simp [transformNodes]
  | comment c => simp [transformNodes]

/-- Induction over the rewriting of a tree.  A host rule at the front of a list is the
only node that is not rewritten but replaced. -/
theorem induction {P : Node → Prop} {Q : List Node → Bool → Prop} (o : Options)
    (hrule : ∀ head nodes ending, Q nodes ending.terminated → P (.rule head nodes ending))
    (hatBlock : ∀ head nodes ending,
      Q nodes ending.terminated → P (.atBlock head nodes ending))
    (hleaf : ∀ n : Node, n.children? = none → P n) (hnil : ∀ terminated, Q [] terminated)
    (hhost : ∀ head nodes ending rest terminated,
      Selector.isHostOnly head.selector = true →
      Q (hoist head.before nodes ++ rest) (terminatedAfter rest nodes ending terminated) →
      Q (.rule head nodes ending :: rest) terminated)
    (hcons : ∀ n rest terminated, n.isHost = false → P n → Q rest terminated →
      Q (n :: rest) terminated) :
    (∀ n, P n) ∧ ∀ ns terminated, Q ns terminated := by
  refine transformNode.mutual_induct o P Q hrule hatBlock ?_ hnil hhost ?_ ?_
  · exact fun n hr hb => hleaf n (Node.children?_eq_none_of_ne hr hb)
  · intro head nodes ending rest terminated h hrest hn
    exact hcons _ rest terminated (by simpa [Node.isHost] using h) hn hrest
  · intro n rest terminated hr hrest hn
    refine hcons n rest terminated ?_ hn hrest
    cases n with
    | rule head nodes ending => exact absurd rfl (hr head nodes ending)
    | atBlock head nodes ending => rfl
    | atStatement head ending => rfl
    | declaration d => rfl
    | comment c => rfl

end TreeMode

namespace Node

/-! ## Changes that a listing does not show -/

theorem entriesIn_hoist (ancestors : List Label) (gap : Text) (ns : List Node) :
    entriesIn ancestors (TreeMode.hoist gap ns) = entriesIn ancestors ns := by
  cases ns with
  | nil => rfl
  | cons n ns =>
    rw [TreeMode.hoist, entriesIn, entriesIn, entries_withBefore]
    refine congrArg _ (entriesIn_map ancestors fun m _ => ?_)
    split
    · exact entries_withBefore ancestors _ m
    · rfl

theorem entriesIn_mapDeclarationsIn {f : Declaration → Declaration}
    (h : ∀ d, (declaration (f d)).label = (declaration d).label) (ancestors : List Label)
    (ns : List Node) :
    entriesIn ancestors (mapDeclarationsIn f ns) = entriesIn ancestors ns := by
  have key : (∀ n : Node, ∀ ancestors,
        (n.mapDeclarations f).entries ancestors = n.entries ancestors) ∧
      ∀ ns : List Node, ∀ ancestors,
        entriesIn ancestors (mapDeclarationsIn f ns) = entriesIn ancestors ns := by
    refine induction ?rule ?atBlock ?leaf ?nil ?cons
    case rule =>
      intro head nodes ending ih ancestors
      rw [mapDeclarations, entries_rule, entries_rule, ih]
    case atBlock =>
      intro head nodes ending ih ancestors
      rw [mapDeclarations, entries_atBlock, entries_atBlock]
      exact congrArg _ (ih _)
    case leaf =>
      intro n hn ancestors
      cases n with
      | rule head nodes ending => cases hn
      | atBlock head nodes ending => cases hn
      | atStatement head ending => simp [mapDeclarations]
      | declaration d =>
        rw [mapDeclarations, entries_of_children?_eq_none rfl,
          entries_of_children?_eq_none rfl, h]
      | comment c => simp [mapDeclarations]
    case nil =>
      intro ancestors
      rfl
    case cons =>
      intro n ns hn hns ancestors
      rw [mapDeclarationsIn, entriesIn, entriesIn, hn, hns]
  exact key.2 ns ancestors

end Node

/-! ## The entries that are left -/

/-- What is left of the labels around a node. -/
def Label.kept (o : Options) (ancestors : List Label) : List Label :=
  (ancestors.filter (!·.isHost)).map (Label.rewrite o)

theorem Label.kept_cons_of_isHost {o : Options} {l : Label} {ancestors : List Label}
    (h : l.isHost = true) : kept o (l :: ancestors) = kept o ancestors := by
  simp [kept, h]

theorem Label.kept_cons {o : Options} {l : Label} {ancestors : List Label}
    (h : l.isHost = false) : kept o (l :: ancestors) = l.rewrite o :: kept o ancestors := by
  simp [kept, h]

namespace Entry

/-- An entry that is left: its selector rewritten, below what is left of its ancestors. -/
def rewritten (o : Options) (e : Entry) : Entry :=
  ⟨Label.kept o e.ancestors, e.label.rewrite o⟩

/-- The entries that are left: all but those of host rules. -/
def survivors (o : Options) (es : List Entry) : List Entry :=
  (es.filter (!·.label.isHost)).map (rewritten o)

theorem survivors_append (o : Options) (es fs : List Entry) :
    survivors o (es ++ fs) = survivors o es ++ survivors o fs := by
  simp [survivors]

theorem survivors_cons_of_isHost {o : Options} {e : Entry} {es : List Entry}
    (h : e.label.isHost = true) : survivors o (e :: es) = survivors o es := by
  simp [survivors, h]

theorem survivors_cons {o : Options} {e : Entry} {es : List Entry}
    (h : e.label.isHost = false) :
    survivors o (e :: es) = e.rewritten o :: survivors o es := by
  simp [survivors, h]

/-- Rules among the entries that are left: as many as there were, less the host rules. -/
theorem countP_survivors (o : Options) (es : List Entry) :
    (survivors o es).countP (·.label.isRule) + es.countP (·.label.isHost) =
      es.countP (·.label.isRule) := by
  induction es with
  | nil => rfl
  | cons e es ih =>
    cases h : e.label.isHost with
    | true =>
      have hr : e.label.isRule = true := Label.isRule_of_isHost h
      simp only [survivors_cons_of_isHost h, List.countP_cons, h, hr, if_true]
      omega
    | false =>
      have hr : (e.rewritten o).label.isRule = e.label.isRule := Label.isRule_rewrite o e.label
      simp only [survivors_cons h, List.countP_cons, h, hr, Bool.false_eq_true, if_false]
      omega

end Entry

namespace Node

open Entry

/-- What is left below some ancestors depends on what is left of these. -/
theorem survivors_entriesIn_congr {o : Options} {above above' : List Label}
    (h : Label.kept o above = Label.kept o above') (ns : List Node) :
    survivors o (entriesIn above ns) = survivors o (entriesIn above' ns) := by
  have hcons : ∀ {above above' : List Label} (l : Label),
      Label.kept o above = Label.kept o above' →
      Label.kept o (l :: above) = Label.kept o (l :: above') := by
    intro above above' l h
    simp only [Label.kept] at h ⊢
    cases hl : l.isHost <;> simp [hl, h]
  have hhead : ∀ {above above' : List Label} {es es' : List Entry} (l : Label),
      Label.kept o above = Label.kept o above' → survivors o es = survivors o es' →
      survivors o (⟨above, l⟩ :: es) = survivors o (⟨above', l⟩ :: es') := by
    intro above above' es es' l h hes
    cases hl : l.isHost with
    | true => rw [survivors_cons_of_isHost hl, survivors_cons_of_isHost hl, hes]
    | false => rw [survivors_cons hl, survivors_cons hl, hes, rewritten, rewritten, h]
  have key : (∀ n : Node, ∀ above above' : List Label,
        Label.kept o above = Label.kept o above' →
        survivors o (n.entries above) = survivors o (n.entries above')) ∧
      ∀ ns : List Node, ∀ above above' : List Label,
        Label.kept o above = Label.kept o above' →
        survivors o (entriesIn above ns) = survivors o (entriesIn above' ns) := by
    refine induction ?rule ?atBlock ?leaf ?nil ?cons
    case rule =>
      intro head nodes ending ih above above' h
      rw [entries_rule, entries_rule]
      exact hhead _ h (ih _ _ (hcons _ h))
    case atBlock =>
      intro head nodes ending ih above above' h
      rw [entries_atBlock, entries_atBlock]
      exact hhead _ h (ih _ _ (hcons _ h))
    case leaf =>
      intro n hn above above' h
      rw [entries_of_children?_eq_none hn, entries_of_children?_eq_none hn]
      exact hhead _ h rfl
    case nil =>
      intro above above' h
      rfl
    case cons =>
      intro n ns hn hns above above' h
      rw [entriesIn, entriesIn, survivors_append, survivors_append, hn _ _ h, hns _ _ h]
  exact key.2 ns above above' h

/-- Rewritten nodes, listed below what is left of their ancestors. -/
theorem entriesIn_transformNodes (o : Options) (above : List Label) (ns : List Node)
    (terminated : Bool) :
    entriesIn (Label.kept o above) (TreeMode.transformNodes o ns terminated).1 =
      survivors o (entriesIn above ns) := by
  have key : (∀ n : Node, n.isHost = false → ∀ above : List Label,
        (TreeMode.transformNode o n).entries (Label.kept o above) =
          survivors o (n.entries above)) ∧
      ∀ (ns : List Node) (terminated : Bool), ∀ above : List Label,
        entriesIn (Label.kept o above) (TreeMode.transformNodes o ns terminated).1 =
          survivors o (entriesIn above ns) := by
    refine TreeMode.induction o ?rule ?atBlock ?leaf ?nil ?host ?cons
    case rule =>
      intro head nodes ending ih hn above
      have hl : (Label.rule head.selector head.between ending.after).isHost = false := hn
      have hih := ih (.rule head.selector head.between ending.after :: above)
      rw [Label.kept_cons hl] at hih
      rw [TreeMode.transformNode, entries_rule, entries_rule, survivors_cons hl]
      exact congrArg _ hih
    case atBlock =>
      intro head nodes ending ih _ above
      have hl : (atBlock head nodes ending).label.isHost = false := rfl
      have hih := ih ((atBlock head nodes ending).label :: above)
      rw [Label.kept_cons hl] at hih
      rw [TreeMode.transformNode, entries_atBlock, entries_atBlock, survivors_cons hl]
      exact congrArg _ hih
    case leaf =>
      intro n hn hh above
      have hl : n.label.isHost = false := by rw [isHost_label, hh]
      have hrewrite : n.label.rewrite o = n.label := by
        cases n with
        | rule head nodes ending => cases hn
        | atBlock head nodes ending => rfl
        | atStatement head ending => rfl
        | declaration d => rfl
        | comment c => rfl
      rw [TreeMode.transformNode_of_children?_eq_none hn, entries_of_children?_eq_none hn,
        entries_of_children?_eq_none hn, survivors_cons hl, rewritten, hrewrite]
      rfl
    case nil =>
      intro terminated above
      rw [TreeMode.transformNodes]
      rfl
    case host =>
      -- The rule's own entry goes, and its nodes lose one ancestor that goes anyway.
      intro head nodes ending rest terminated h ih above
      have hl : (Label.rule head.selector head.between ending.after).isHost = true := h
      rw [TreeMode.transformNodes_host h, ih above, entriesIn_append, entriesIn_hoist,
        entriesIn, entries_rule, List.cons_append, survivors_cons_of_isHost hl,
        survivors_append, survivors_append,
        survivors_entriesIn_congr (Label.kept_cons_of_isHost hl)]
    case cons =>
      intro n rest terminated hn ihn ihrest above
      rw [TreeMode.transformNodes_cons hn, entriesIn, entriesIn, survivors_append,
        ihn hn above, ihrest above]
  exact key.2 ns terminated above

end Node

namespace Sheet

theorem listing_transform (o : Options) (s : Sheet) :
    (s.transform o).listing = Entry.survivors o s.listing := by
  have hgaps : ∀ d, (Node.declaration (TreeMode.shrinkGap d)).label =
      (Node.declaration d).label := fun _ => rfl
  rw [listing, transform, mapDeclarations, Node.entriesIn_mapDeclarationsIn hgaps]
  exact Node.entriesIn_transformNodes o [] s.nodes s.ending.terminated

/-- Rewriting a tree loses, doubles and moves nothing.  Its listing afterwards is its
listing without the host rules, where every node that is left keeps its label but for
the selector, and its ancestors but for the host rules among them.  The gap at the end
stays, and there are as many style rules fewer as there were host rules. -/
theorem transform_keeps (o : Options) (s : Sheet) :
    (s.transform o).listing =
        (s.listing.filter (!·.label.isHost)).map
          (fun e => ⟨(e.ancestors.filter (!·.isHost)).map (Label.rewrite o),
            e.label.rewrite o⟩) ∧
      (s.transform o).ending.after = s.ending.after ∧
      (s.transform o).ruleCount + s.listing.countP (·.label.isHost) = s.ruleCount := by
  refine ⟨listing_transform o s, rfl, ?_⟩
  rw [ruleCount_eq_countP, ruleCount_eq_countP, listing_transform]
  exact Entry.countP_survivors o s.listing

end Sheet

end HostSheet
