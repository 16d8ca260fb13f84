import Mathlib
import HostSheet.Proofs.Stability
import HostSheet.Proofs.Unwrapping

set_option autoImplicit false

/-!
# Texts that are rewritten to themselves

Remapping leaves a text alone exactly if every name behind a bracket is final
(`remapNames_eq_self_iff`), and what it makes of a text it leaves alone.  So the names of a
rewritten text are final wherever they come from: remapping is the last thing that happens to
it.  The other steps all look for `:host`, and a rewritten text without it is rewritten to
itself (`transformText_transformText`).
-/

namespace HostSheet

open Text

namespace Selector

/-! ## Bracketed names -/

theorem mem_bracketedNames_bracket {c : Char} (hc : Attribute.isFirst c = true) (u v : Text) :
    (c :: v).takeWhile Attribute.isInner ∈ bracketedNames (u ++ '[' :: c :: v) := by
  refine mem_bracketedNames_append u (List.mem_append_left _ ?_)
  rw [if_pos rfl, splitName?_cons hc]
  exact List.mem_cons_self

/-- What remapping makes of a text it leaves alone. -/
theorem remapAttributes_remapAttributes (o : Options) (s : Text) :
    (remapAttributes o (remapAttributes o s).text).text = (remapAttributes o s).text := by
  unfold remapAttributes
  split
  · exact remapNames_remapNames o.excluded s
  · rfl

end Selector

/-! ## Whole texts -/

/-- A text without `:host` has no host block. -/
theorem HostBlock.unwrap_of_mentionsHost_eq_false {s : Text}
    (h : Selector.mentionsHost s = false) : HostBlock.unwrap s = .unchanged s := by
  have hblock : HostBlock.block.matchesIn s = false := by
    by_contra hm
    rw [Selector.mentionsHost_of_matchesIn (fun _ => HostBlock.isPrefix_of_read)
      (by simpa using hm)] at h
    cases h
  rw [HostBlock.unwrap, Pattern.rewrite, Pattern.replaceAll_of_matchesIn_eq_false hblock,
    hblock]
  rfl

/-- In a text without `:host`, nothing but its attributes is rewritten. -/
theorem rewriteText_of_mentionsHost_eq_false {o : Options} {s : Text}
    (h : Selector.mentionsHost s = false) :
    rewriteText o s = (Selector.remapAttributes o s).text := by
  rw [rewriteText, HostBlock.unwrap_of_mentionsHost_eq_false h]
  change (Selector.remapAttributes o (Selector.rewriteHost o s).text).text = _
  rw [Selector.rewriteHost_of_mentionsHost_eq_false h]
  rfl

theorem remapAttributes_rewriteText (o : Options) (s : Text) :
    (Selector.remapAttributes o (rewriteText o s)).text = rewriteText o s :=
  Selector.remapAttributes_remapAttributes o _

theorem transformText_of_layer_eq_none {o : Options} (h : o.layer = none) (s : Text) :
    transformText o s = rewriteText o s := by
  rw [transformText, h]
  rfl

/-- Without a layer, rewriting a text reaches a fixpoint.  If attributes are remapped, every
name behind a bracket of the result has its `data-` form or is excluded, wherever it comes
from.  And a result without `:host` is rewritten to itself. -/
theorem transformText_transformText {o : Options} (hlayer : o.layer = none) (s : Text) :
    (o.dataAttributes = true → ∀ u c v, transformText o s = u ++ '[' :: c :: v →
        Attribute.isFirst c = true →
        Attribute.dataMark <+: (c :: v).takeWhile Attribute.isInner ∨
          (c :: v).takeWhile Attribute.isInner ∈ o.excluded) ∧
      (Selector.mentionsHost (transformText o s) = false →
        transformText o (transformText o s) = transformText o s) := by
  simp only [transformText_of_layer_eq_none hlayer]
  constructor
  · intro hdata u c v hsplit hc
    have hfixed := remapAttributes_rewriteText o s
    rw [Selector.remapAttributes, if_pos hdata] at hfixed
    refine Attribute.isFinal_iff.1 (Selector.remapNames_eq_self_iff.1 hfixed _ ?_)
    rw [hsplit]
    exact Selector.mem_bracketedNames_bracket hc u v
  · intro hhost
    rw [rewriteText_of_mentionsHost_eq_false hhost, remapAttributes_rewriteText]

/-- A name from the host tag, one from an argument, one that a `data-` is put in front of only
in the last step, and one that is excluded. -/
theorem transformText_transformText_names :
    let o : Options := ⟨"[x]".toList, some [], true, some ["part".toList]⟩
    let s : Text := ":host([a]) [part] [:host [b]".toList
    o.layer = none ∧ o.dataAttributes = true ∧
      transformText o s = "[data-x][data-a] [part] [[data-x] [data-b]".toList ∧
      Selector.mentionsHost (transformText o s) = false ∧
      Attribute.dataMark <+: "data-b".toList ∧
      transformText o (transformText o s) = transformText o s := by
  intro o s
  have hlayer : o.layer = none := by decide
  have hout : transformText o s = "[data-x][data-a] [part] [[data-x] [data-b]".toList := by
    decide +kernel
  have hhost : Selector.mentionsHost (transformText o s) = false := by
    rw [hout]
    decide +kernel
  have hfixpoint := transformText_transformText hlayer s
  have hname := hfixpoint.1 rfl "[data-x][data-a] [part] [[data-x] ".toList 'd' "ata-b]".toList
    (by rw [hout]; decide) (by decide)
  refine ⟨hlayer, rfl, hout, hhost, ?_, hfixpoint.2 hhost⟩
  exact hname.resolve_right (by decide)

end HostSheet
