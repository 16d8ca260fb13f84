import Mathlib
import HostSheet.Mode
import HostSheet.Options.Check
import HostSheet.Proofs.Brackets
import HostSheet.Proofs.Hoisting

set_option autoImplicit false

/-!
# Which exclusions matter

The list of excluded names is asked about one thing only: whether a name read behind a
bracket is final.  Such a name is a plain name, and one with a `data-` form already is final
on any list.  So options that agree on the other plain names are alike
(`Options.IsAlike`), and every function of the options has the same values for both.
-/

namespace HostSheet

namespace Options

/-- The excluded names that can change anything: plain names that have no `data-` form
already. -/
def usableExclusions (o : Options) : Set Text :=
  { name | name ∈ o.excluded ∧ Attribute.isName name = true ∧ ¬ Attribute.dataMark <+: name }

/-- Options that rewrite in the same way: they differ in the excluded names at most, and not
in which plain names are final. -/
structure IsAlike (o o' : Options) : Prop where
  hostTag : o.hostTag = o'.hostTag
  layer : o.layer = o'.layer
  dataAttributes : o.dataAttributes = o'.dataAttributes
  isFinal : ∀ name, Attribute.isName name = true →
    Attribute.isFinal name o.excluded = Attribute.isFinal name o'.excluded

/-- Options with the same usable exclusions are alike. -/
theorem isAlike_of_usableExclusions {o : Options} {exclude : Option (List Text)}
    (h : { o with excludeFromData := exclude }.usableExclusions = o.usableExclusions) :
    IsAlike { o with excludeFromData := exclude } o where
  hostTag := rfl
  layer := rfl
  dataAttributes := rfl
  isFinal := by
    intro name hname
    rw [Bool.eq_iff_iff, Attribute.isFinal_iff, Attribute.isFinal_iff]
    by_cases hmark : Attribute.dataMark <+: name
    · simp [hmark]
    · have hmem := Set.ext_iff.1 h name
      simp only [usableExclusions, Set.mem_ofPred_eq, hname, hmark] at hmem
      simpa [hmark] using hmem

end Options

/-! ## Selectors -/

namespace Selector

variable {o o' : Options}

theorem isName_of_splitName? {s name rest : Text} (h : splitName? s = some (name, rest)) :
    Attribute.isName name = true :=
  (splitName?_eq_some_iff.1 h).2.1

section

variable {exclude exclude' : List Text}
  (h : ∀ name, Attribute.isName name = true →
    Attribute.isFinal name exclude = Attribute.isFinal name exclude')

include h

theorem remap_congr {name : Text} (hname : Attribute.isName name = true) :
    Attribute.remap name exclude = Attribute.remap name exclude' := by
  rw [Attribute.remap, Attribute.remap, h name hname]

theorem readBracketed_congr (s : Text) : readBracketed exclude s = readBracketed exclude' s := by
  simp only [readBracketed]
  cases Text.after? ['['] s with
  | none => rfl
  | some r =>
    cases hs : splitName? r with
    | none => simp [hs]
    | some p => simp [hs, remap_congr h (isName_of_splitName? hs)]

theorem remapNames_congr : remapNames exclude = remapNames exclude' := by
  have hpattern : bracketed exclude = bracketed exclude' := by
    rw [bracketed, bracketed, Text.Pattern.mk.injEq]
    exact funext (readBracketed_congr h)
  funext s
  rw [remapNames, remapNames, hpattern]

theorem remapFirstName_congr (s : Text) :
    remapFirstName exclude s = remapFirstName exclude' s := by
  induction s with
  | nil => rfl
  | cons c r ih =>
    cases hs : splitName? (c :: r) with
    | none => simp only [remapFirstName, hs, ih]
    | some p => simp only [remapFirstName, hs, remap_congr h (isName_of_splitName? hs)]

end

section

variable (h : o.IsAlike o')

include h

theorem remapAttributes_congr : remapAttributes o = remapAttributes o' := by
  funext s
  rw [remapAttributes, remapAttributes, h.dataAttributes, remapNames_congr h.isFinal]

theorem hostFunction_congr : hostFunction o = hostFunction o' := by
  rw [hostFunction, hostFunction, Text.Pattern.mk.injEq]
  funext s
  simp only [readHostFunction, h.hostTag, remapAttributes_congr h]

theorem hostDescendant_congr : hostDescendant o = hostDescendant o' := by
  rw [hostDescendant, hostDescendant, Text.Pattern.mk.injEq]
  funext s
  simp only [readHostDescendant, h.hostTag, h.dataAttributes, remapFirstName_congr h.isFinal]

theorem rewriteHost_congr : rewriteHost o = rewriteHost o' := by
  funext s
  rw [rewriteHost, rewriteHost, hostFunction_congr h, hostDescendant_congr h]

theorem rewrite_congr : rewrite o = rewrite o' := by
  funext s
  rw [rewrite, rewrite, rewriteHost_congr h, remapAttributes_congr h]

end

end Selector

/-! ## Stylesheets -/

namespace TreeMode

variable {o o' : Options}

theorem rewriteRuleSelector_congr (h : o.IsAlike o') :
    rewriteRuleSelector o = rewriteRuleSelector o' := by
  funext s
  rw [rewriteRuleSelector, rewriteRuleSelector, Selector.rewrite_congr h, h.dataAttributes,
    Selector.remapAttributes_congr h]

theorem transformNodes_congr (h : o.IsAlike o') (ns : List Node) (terminated : Bool) :
    transformNodes o ns terminated = transformNodes o' ns terminated := by
  have key : (∀ n, transformNode o n = transformNode o' n) ∧
      ∀ ns terminated, transformNodes o ns terminated = transformNodes o' ns terminated := by
    refine induction o ?rule ?atBlock ?leaf ?nil ?host ?cons
    case rule =>
      intro head nodes ending ih
      simp only [transformNode, ih, rewriteRuleSelector_congr h]
    case atBlock =>
      intro head nodes ending ih
      simp only [transformNode, ih]
    case leaf =>
      intro n hn
      rw [transformNode_of_children?_eq_none hn, transformNode_of_children?_eq_none hn]
    case nil =>
      intro terminated
      simp only [transformNodes]
    case host =>
      intro head nodes ending rest terminated hhost ih
      rw [transformNodes_host hhost, transformNodes_host hhost, ih]
    case cons =>
      intro n rest terminated hhost hn hrest
      rw [transformNodes_cons hhost, transformNodes_cons hhost, hn, hrest]
  exact key.2 ns terminated

end TreeMode

section

variable {o o' : Options} (h : o.IsAlike o')

include h

theorem transformText_congr : transformText o = transformText o' := by
  funext s
  simp only [transformText, rewriteText, Selector.rewriteHost_congr h,
    Selector.remapAttributes_congr h, h.layer]

theorem transformTree_congr : transformTree o = transformTree o' := by
  funext s
  simp only [transformTree, Sheet.transform, TreeMode.transformNodes_congr h, h.layer]

/-- Options that are alike rewrite every stylesheet to the same text or refuse it with the
same error. -/
theorem transform_congr (mode : Mode) : transform mode o = transform mode o' := by
  funext s
  cases mode with
  | text => rw [transform, transform, transformText_congr h]
  | tree => rw [transform, transform, transformTree_congr h]

end

/-- Only usable exclusions matter.  Two lists that have the same usable names give the same
result for every stylesheet, looked at in either way, be it a text or an error.  So it does
not matter in which order names are listed, how often, or whether names are listed that the
check of the options points out. -/
theorem transform_of_usableExclusions (mode : Mode) (o : Options) (css : Text) :
    (∀ exclude,
        { o with excludeFromData := exclude }.usableExclusions = o.usableExclusions →
        transform mode { o with excludeFromData := exclude } css = transform mode o css) ∧
      ∀ names : List Text,
        (∀ name, name ∈ names ↔ name ∈ o.excluded ∧ name ∉ o.uselessExclusions) →
        transform mode { o with excludeFromData := some names } css = transform mode o css := by
  have hlaw : ∀ exclude,
      { o with excludeFromData := exclude }.usableExclusions = o.usableExclusions →
      transform mode { o with excludeFromData := exclude } css = transform mode o css :=
    fun exclude h => by rw [transform_congr (Options.isAlike_of_usableExclusions h)]
  refine ⟨hlaw, fun names hnames => hlaw _ ?_⟩
  ext name
  have hexcluded : { o with excludeFromData := some names }.excluded = names := rfl
  simp only [Options.usableExclusions, Set.mem_ofPred_eq, hexcluded, hnames,
    Options.uselessExclusions, List.mem_filter]
  constructor
  · rintro ⟨⟨hmem, _⟩, hname, hmark⟩
    exact ⟨hmem, hname, hmark⟩
  · rintro ⟨hmem, hname, hmark⟩
    exact ⟨⟨hmem, by simp [hname]⟩, hname, hmark⟩

/-- Another order, a repetition, a name that is no attribute name and one with a `data-` form,
for a selector that asks about the list in a form with `:host`. -/
theorem transform_of_usableExclusions_order :
    let o : Options := { dataAttributes := true, excludeFromData := some [['b'], ['c']] }
    let exclude := some [['c'], "1x".toList, ['b'], ['c'], "data-d".toList]
    { o with excludeFromData := exclude }.usableExclusions = o.usableExclusions ∧
      transform .tree { o with excludeFromData := exclude } ":host([a][b]) [c]\x7b\x7d".toList =
        transform .tree o ":host([a][b]) [c]\x7b\x7d".toList := by
  intro o exclude
  have husable : { o with excludeFromData := exclude }.usableExclusions =
      o.usableExclusions := by
    ext name
    simp only [Options.usableExclusions, Set.mem_ofPred_eq]
    refine and_congr_left ?_
    rintro ⟨hname, hmark⟩
    constructor
    · intro hmem
      have hcases : name = ['c'] ∨ name = "1x".toList ∨ name = ['b'] ∨ name = ['c'] ∨
          name = "data-d".toList := by simpa [Options.excluded, exclude] using hmem
      rcases hcases with rfl | rfl | rfl | rfl | rfl
      · decide
      · cases hname
      · decide
      · decide
      · exact absurd (by decide) hmark
    · intro hmem
      have hcases : name = ['b'] ∨ name = ['c'] := by simpa [Options.excluded, o] using hmem
      rcases hcases with rfl | rfl <;> decide
  exact ⟨husable, (transform_of_usableExclusions .tree o _).1 exclude husable⟩

end HostSheet
