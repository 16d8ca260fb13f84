import Mathlib
import HostSheet.Proofs.Arguments
import HostSheet.Proofs.Stability

set_option autoImplicit false

/-!
# The name in a bracket behind the host

The form `:host [content]` and remapping on its own both put the name in a bracket into its
`data-` form, but they do not look for it in the same place.  Remapping takes a name directly
behind the bracket; the form takes the first one in the content, wherever it stands
(`text_remapNames_bracket`, `text_rewriteHost_bracket`).  So the two agree exactly if the content
starts with its first name, or that name is final (`rewriteHost_bracket_iff`).
-/

namespace HostSheet

open Text

namespace Attribute

theorem remap_eq_self_iff {name : Text} {exclude : List Text} :
    remap name exclude = name ↔ isFinal name exclude = true := by
  refine ⟨fun h => ?_, fun h => if_pos h⟩
  by_contra hnot
  rw [remap, if_neg hnot] at h
  have := congrArg List.length h
  rw [List.length_append] at this
  exact absurd this (by simp [dataMark])

end Attribute

namespace Selector

/-! ## The first name of a text -/

/-- The first plain name of a text, wherever it stands. -/
def firstName? (s : Text) : Option Text :=
  (splitName? (s.dropWhile (!Attribute.isFirst ·))).map Prod.fst

theorem firstName?_of_splitName? {s name rest : Text} (h : splitName? s = some (name, rest)) :
    firstName? s = some name := by
  cases s with
  | nil => cases h
  | cons c r =>
    have hc : Attribute.isFirst c = true := by
      by_contra hc
      rw [splitName?, if_neg hc] at h
      cases h
    rw [firstName?, List.dropWhile_cons_of_neg (by simp [hc]), h]
    rfl

theorem firstName?_cons {c : Char} (hc : Attribute.isFirst c = false) (r : Text) :
    firstName? (c :: r) = firstName? r := by
  rw [firstName?, List.dropWhile_cons_of_pos (by simp [hc]), firstName?]

theorem remapFirstName_of_splitName? {exclude : List Text} {s name rest : Text}
    (h : splitName? s = some (name, rest)) :
    remapFirstName exclude s = Attribute.remap name exclude ++ rest := by
  cases s with
  | nil => cases h
  | cons c r => rw [remapFirstName, h]

theorem splitName?_cons_of_isFirst_eq_false {c : Char} (hc : Attribute.isFirst c = false)
    (r : Text) : splitName? (c :: r) = none := by
  rw [splitName?, hc]
  rfl

theorem remapFirstName_cons {exclude : List Text} {c : Char} (hc : Attribute.isFirst c = false)
    (r : Text) : remapFirstName exclude (c :: r) = c :: remapFirstName exclude r := by
  rw [remapFirstName, splitName?_cons_of_isFirst_eq_false hc]

/-- A text stays as it is if its first name is final, or if it has none. -/
theorem remapFirstName_eq_self_iff {exclude : List Text} {s : Text} :
    remapFirstName exclude s = s ↔
      ∀ name ∈ firstName? s, Attribute.isFinal name exclude = true := by
  induction s with
  | nil => exact iff_of_true rfl nofun
  | cons c r ih =>
    cases hc : Attribute.isFirst c with
    | true =>
      obtain ⟨happ, _, _⟩ := splitName?_eq_some_iff.1 (splitName?_cons hc r)
      rw [remapFirstName_of_splitName? (splitName?_cons hc r),
        firstName?_of_splitName? (splitName?_cons hc r)]
      conv => lhs; rhs; rw [happ]
      rw [List.append_left_inj, Attribute.remap_eq_self_iff]
      simp
    | false =>
      rw [remapFirstName_cons hc, firstName?_cons hc, List.cons_inj_right, ih]

/-- The first name of a text stands at its front if any name does. -/
theorem firstName_isPrefix_iff {s name : Text} (h : firstName? s = some name) :
    name <+: s ↔ (splitName? s).isSome = true := by
  cases hs : splitName? s with
  | some p =>
    obtain ⟨name', rest⟩ := p
    rw [firstName?_of_splitName? hs] at h
    obtain rfl := Option.some.inj h
    exact iff_of_true ⟨rest, append_of_splitName? hs⟩ rfl
  | none =>
    refine iff_of_false ?_ nofun
    rintro ⟨rest, rfl⟩
    obtain ⟨⟨name', rest'⟩, hsplit, rfl⟩ := Option.map_eq_some_iff.1 h
    obtain ⟨_, hname, _⟩ := splitName?_eq_some_iff.1 hsplit
    cases name' with
    | nil => cases hname
    | cons c r =>
      rw [Attribute.isName, Bool.and_eq_true] at hname
      rw [List.cons_append, splitName?, if_pos hname.1] at hs
      cases hs

/-! ## One bracket -/

/-- Remapping looks for a name directly behind the bracket. -/
theorem text_remapNames_bracket (exclude : List Text) {content : Text} (h : '[' ∉ content) :
    (remapNames exclude ('[' :: content ++ [']'])).text =
      '[' :: ((if (splitName? content).isSome then remapFirstName exclude content else content) ++
        [']']) := by
  have hcut : Apart ('[' :: content) [']'] := by
    refine .inr fun c hc => ?_
    obtain rfl : ']' = c := by simpa using hc
    rfl
  have hclose : (remapNames exclude [']']).text = [']'] := by
    rw [text_remapNames, insertMarks_cons (by simp)]
    rfl
  have hcontent : insertMarks exclude content = content := by
    simpa [insertMarks] using insertMarks_append_of_not_mem exclude h []
  rw [remapNames_append hcut, hclose, text_remapNames]
  cases hs : splitName? content with
  | some p =>
    obtain ⟨name, rest⟩ := p
    have htakes : TakesMark exclude content ↔ Attribute.isFinal name exclude = false := by
      simp [takesMark_iff, hs]
    rw [Option.isSome_some, if_pos rfl, remapFirstName_of_splitName? hs, Attribute.remap]
    cases hfinal : Attribute.isFinal name exclude with
    | true =>
      rw [insertMarks_cons (by simp [htakes, hfinal]), hcontent, if_pos rfl,
        append_of_splitName? hs, List.cons_append]
    | false =>
      rw [insertMarks_of_takesMark (htakes.2 hfinal), hcontent, if_neg Bool.false_ne_true,
        ← append_of_splitName? hs]
      simp
  | none =>
    rw [insertMarks_cons (by simp [takesMark_iff, hs]), hcontent]
    rfl

/-- The form `:host [content]` looks for a name anywhere in the content. -/
theorem text_rewriteHost_bracket (o : Options) {content : Text} (hclose : ']' ∉ content)
    (hhost : mentionsHost content = false) :
    (rewriteHost o (hostSelector ++ ' ' :: '[' :: content ++ [']'])).text =
      o.hostTag ++ ' ' :: '[' ::
        ((if o.dataAttributes then remapFirstName o.excluded content else content) ++ [']']) := by
  have hbracket : Clear (' ' :: '[' :: content ++ [']']) [] := by
    have hcontent : Clear (content ++ []) [] := by
      rw [List.append_nil]
      exact clear_of_mentionsHost_eq_false hhost
    have hclosed := hcontent.insert (d := ']') (by decide)
    exact (hclosed.insert (t := []) (d := '[') (by decide)).insert (t := []) (d := ' ') (by decide)
  have hfunction : (hostFunction o).replaceAll (hostSelector ++ ' ' :: '[' :: content ++ [']']) =
      hostSelector ++ ' ' :: '[' :: content ++ [']'] := by
    have hread :
        (hostFunction o).read (hostSelector ++ (' ' :: '[' :: content ++ [']'])) = none := by
      by_contra hsome
      obtain ⟨r, he, _⟩ := isSome_readHostFunction_iff.1 (Option.isSome_iff_ne_none.2 hsome)
      cases (List.cons.inj (List.append_cancel_left he)).1
    have htail : Clear (['h', 'o', 's', 't'] ++ (' ' :: '[' :: content ++ [']'])) [] :=
      clear_append_iff.2 ⟨by simp [Clear, hostSelector], hbracket⟩
    exact (Pattern.replaceAll_of_read_eq_none hread).trans
      (congrArg (':' :: ·) (replaceAll_of_clear (fun _ => isPrefix_of_readHostFunction) htail))
  have hread : (hostDescendant o).read (hostSelector ++ ' ' :: '[' :: content ++ [']']) =
      some (o.hostTag ++ [' ', '['] ++
        (if o.dataAttributes then remapFirstName o.excluded content else content) ++ [']'], []) :=
    readHostDescendant_eq_some_iff.2
      ⟨[' '], content, by simp, by simp, by simp [isSpace], hclose, rfl⟩
  change (hostDescendant o).replaceAll ((hostFunction o).replaceAll _) = _
  rw [hfunction, Pattern.replaceAll_of_read_eq_some hread]
  simp

/-- Behind the host a bracket is rewritten as it is on its own if and only if its content starts
with its first name, or that name is final.  On its own a bracket is left alone if its content does
not start with a name. -/
theorem rewriteHost_bracket_iff {o : Options} (hdata : o.dataAttributes = true) {content : Text}
    (hopen : '[' ∉ content) (hclose : ']' ∉ content) (hhost : mentionsHost content = false) :
    ((rewriteHost o (hostSelector ++ ' ' :: '[' :: content ++ [']'])).text =
        o.hostTag ++ ' ' :: (remapAttributes o ('[' :: content ++ [']'])).text ↔
      ∀ name ∈ firstName? content,
        name <+: content ∨ Attribute.isFinal name o.excluded = true) ∧
      (splitName? content = none →
        (remapAttributes o ('[' :: content ++ [']'])).text = '[' :: content ++ [']']) := by
  rw [text_rewriteHost_bracket o hclose hhost, remapAttributes, if_pos hdata, if_pos hdata,
    text_remapNames_bracket _ hopen, List.append_cancel_left_eq, List.cons_inj_right,
    List.cons_inj_right, List.append_cancel_right_eq]
  cases hs : splitName? content with
  | some p =>
    refine ⟨iff_of_true rfl fun name hname => .inl ?_, fun h => absurd h (Option.some_ne_none p)⟩
    rw [firstName_isPrefix_iff hname, hs]
    rfl
  | none =>
    refine ⟨?_, fun _ => rfl⟩
    rw [Option.isSome_none, if_neg Bool.false_ne_true, remapFirstName_eq_self_iff]
    refine forall₂_congr fun name hname => ?_
    rw [firstName_isPrefix_iff hname, hs]
    simp

/-- A name behind a namespace: it is not where remapping looks, but as it is excluded the form
leaves it alone too. -/
theorem rewriteHost_bracket_iff_namespace :
    let o : Options := { dataAttributes := true, excludeFromData := some ["part".toList] }
    let content := "*|part~=\"b\"".toList
    (o.dataAttributes = true ∧ '[' ∉ content ∧ ']' ∉ content ∧ mentionsHost content = false) ∧
      (rewriteHost o (hostSelector ++ ' ' :: '[' :: content ++ [']'])).text =
        o.hostTag ++ ' ' :: (remapAttributes o ('[' :: content ++ [']'])).text ∧
      (remapAttributes o ('[' :: content ++ [']'])).text = '[' :: content ++ [']'] := by
  intro o content
  have hopen : '[' ∉ content := by decide +kernel
  have hclose : ']' ∉ content := by decide +kernel
  have hhost : mentionsHost content = false := by decide +kernel
  have hfinal : ∀ name ∈ firstName? content,
      name <+: content ∨ Attribute.isFinal name o.excluded = true := by decide +kernel
  obtain ⟨hsame, hkept⟩ := rewriteHost_bracket_iff (o := o) rfl hopen hclose hhost
  exact ⟨⟨rfl, hopen, hclose, hhost⟩, hsame.2 hfinal, hkept (by decide +kernel)⟩

/-- This content does not start with a name, so remapping leaves it alone.  Behind the host its
letters are renamed in the middle. -/
theorem rewriteHost_renames_inside :
    let o : Options := { dataAttributes := true }
    let content := "1bad".toList
    ('[' ∉ content ∧ ']' ∉ content ∧ mentionsHost content = false) ∧
      ('[' ∉ o.hostTag ∧ ':' ∉ o.hostTag) ∧
      (rewriteHost o (hostSelector ++ ' ' :: '[' :: content ++ [']'])).text =
        "& [1data-bad]".toList ∧
      o.hostTag ++ ' ' :: (remapAttributes o ('[' :: content ++ [']'])).text =
        "& [1bad]".toList ∧
      "& [1data-bad]".toList ≠ "& [1bad]".toList := by
  decide +kernel

end Selector

end HostSheet
