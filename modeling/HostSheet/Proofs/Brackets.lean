import Mathlib
import HostSheet.Proofs.Matches

set_option autoImplicit false

/-!
# Remapping the names behind brackets

Remapping scans a text for brackets with a name behind them.  The scan can be forgotten: no name
has a bracket in it, so no match hides another, and remapping puts in `data-` behind each bracket
whose name is not final, looked at on its own (`text_remapNames`).

A name goes on for as long as its characters do, so what happens behind a bracket depends on the
character behind the name.  But a name never goes past a character that no plain name has, and
this is enough to remap a text part by part (`remapNames_append`).  What is put in is read as
part of the name, which makes the name final, so remapping twice is remapping once
(`text_remapAttributes`).
-/

namespace HostSheet

namespace Attribute

theorem isInner_of_isFirst {c : Char} (h : isFirst c = true) : isInner c = true := by
  simp [isInner, h]

theorem isInner_of_mem {name : Text} {c : Char} (h : isName name = true) (hc : c ∈ name) :
    isInner c = true := by
  cases name with
  | nil => cases h
  | cons a r =>
    rw [isName, Bool.and_eq_true] at h
    rcases List.mem_cons.1 hc with rfl | hr
    · exact isInner_of_isFirst h.1
    · exact List.all_eq_true.1 h.2 c hr

theorem isName_append {name rest : Text} (h : isName name = true)
    (hrest : rest.all isInner = true) : isName (name ++ rest) = true := by
  cases name with
  | nil => cases h
  | cons a r =>
    rw [isName, Bool.and_eq_true] at h
    rw [List.cons_append, isName, List.all_append, h.1, h.2, hrest]
    rfl

/-- A final name has its `data-` form or is on the list. -/
theorem isFinal_iff {name : Text} {exclude : List Text} :
    isFinal name exclude = true ↔ dataMark <+: name ∨ name ∈ exclude := by
  rw [isFinal, Bool.or_eq_true, List.isPrefixOf_iff_prefix, isExcluded, List.contains_iff_mem]

theorem isName_remap {name : Text} (exclude : List Text) (h : isName name = true) :
    isName (remap name exclude) = true := by
  unfold remap
  split
  · exact h
  · exact isName_append (by decide) (List.all_eq_true.2 fun c hc => isInner_of_mem h hc)

end Attribute

namespace Selector

open Text

theorem splitName?_eq_some_iff {s name rest : Text} :
    splitName? s = some (name, rest) ↔
      s = name ++ rest ∧ Attribute.isName name = true ∧
        ∀ c, rest.head? = some c → Attribute.isInner c = false := by
  constructor
  · intro h
    refine ⟨(append_of_splitName? h).symm, ?_⟩
    cases s with
    | nil => cases h
    | cons c r =>
      simp only [splitName?] at h
      split at h
      · rename_i hc
        obtain ⟨rfl, rfl⟩ := by simpa using h
        refine ⟨?_, fun d hd => head?_dropWhile hd⟩
        rw [Attribute.isName, hc, Bool.true_and]
        exact List.all_takeWhile
      · cases h
  · rintro ⟨rfl, hname, hrest⟩
    cases name with
    | nil => cases hname
    | cons c r =>
      rw [Attribute.isName, Bool.and_eq_true, List.all_eq_true] at hname
      rw [List.cons_append, splitName?, if_pos hname.1, takeWhile_run hname.2 hrest,
        dropWhile_run hname.2 hrest]

/-- The name behind a bracket is the whole run of its characters. -/
theorem splitName?_cons {c : Char} (hc : Attribute.isFirst c = true) (v : Text) :
    splitName? (c :: v) =
      some ((c :: v).takeWhile Attribute.isInner, (c :: v).dropWhile Attribute.isInner) := by
  have hinner := Attribute.isInner_of_isFirst hc
  rw [splitName?, if_pos hc, List.takeWhile_cons_of_pos hinner,
    List.dropWhile_cons_of_pos hinner]

theorem not_mem_of_isName {name : Text} (h : Attribute.isName name = true) : '[' ∉ name := by
  intro hm
  have hinner := Attribute.isInner_of_mem h hm
  revert hinner
  decide

/-- A match of a bracketed name is this text. -/
theorem readBracketed_eq_some_iff {exclude : List Text} {s out rest : Text} :
    readBracketed exclude s = some (out, rest) ↔
      ∃ name, s = '[' :: name ++ rest ∧ Attribute.isName name = true ∧
        (∀ c, rest.head? = some c → Attribute.isInner c = false) ∧
        out = '[' :: Attribute.remap name exclude := by
  simp only [readBracketed, Option.bind_eq_bind, Option.bind_eq_some_iff, Prod.exists,
    Option.pure_def, Option.some.injEq, Prod.mk.injEq, after?_eq_some_iff,
    splitName?_eq_some_iff]
  constructor
  · rintro ⟨r, rfl, name, rest', ⟨rfl, hname, hrest⟩, rfl, rfl⟩
    exact ⟨name, rfl, hname, hrest, rfl⟩
  · rintro ⟨name, rfl, hname, hrest, rfl⟩
    exact ⟨name ++ rest, rfl, name, rest, ⟨rfl, hname, hrest⟩, rfl, rfl⟩

/-! ## Place by place -/

/-- Whether the mark `data-` goes between a bracket and the text behind it: a name starts there,
and the run of its characters neither has its `data-` form nor is excluded. -/
structure TakesMark (exclude : List Text) (r : Text) : Prop where
  starts : ∃ c ∈ r.head?, Attribute.isFirst c = true
  not_marked : ¬Attribute.dataMark <+: r.takeWhile Attribute.isInner
  not_excluded : r.takeWhile Attribute.isInner ∉ exclude

instance (exclude : List Text) (r : Text) : Decidable (TakesMark exclude r) :=
  decidable_of_iff ((∃ c ∈ r.head?, Attribute.isFirst c = true) ∧
      ¬Attribute.dataMark <+: r.takeWhile Attribute.isInner ∧
        r.takeWhile Attribute.isInner ∉ exclude)
    ⟨fun h => ⟨h.1, h.2.1, h.2.2⟩, fun h => ⟨h.starts, h.not_marked, h.not_excluded⟩⟩

/-- The text with `data-` put in at every place where it goes.  Each place is looked at on its
own, with what stands behind it in the text. -/
def insertMarks (exclude : List Text) : Text → Text
  | [] => []
  | c :: r =>
    if c = '[' ∧ TakesMark exclude r then c :: (Attribute.dataMark ++ insertMarks exclude r)
    else c :: insertMarks exclude r

variable {exclude : List Text}

/-- A mark goes behind a bracket if the name read there is not final. -/
theorem takesMark_iff {r : Text} :
    TakesMark exclude r ↔
      ∃ name ∈ (splitName? r).map Prod.fst, Attribute.isFinal name exclude = false := by
  have hnot : ∀ name, Attribute.isFinal name exclude = false ↔
      ¬Attribute.dataMark <+: name ∧ name ∉ exclude := by
    intro name
    rw [← Bool.not_eq_true, Attribute.isFinal_iff, not_or]
  cases r with
  | nil => exact iff_of_false (fun h => by simpa using h.starts) (by simp [splitName?])
  | cons c r =>
    cases hc : Attribute.isFirst c with
    | false =>
      refine iff_of_false (fun h => ?_) (by simp [splitName?, hc])
      have hstarts := h.starts
      simp [hc] at hstarts
    | true =>
      simp only [splitName?_cons hc, Option.map_some, Option.mem_some_iff, exists_eq_left', hnot]
      exact ⟨fun h => ⟨h.not_marked, h.not_excluded⟩, fun h => ⟨⟨c, rfl, hc⟩, h.1, h.2⟩⟩

/-- All that counts is how a text starts. -/
theorem takesMark_congr {r r' : Text} (hhead : r.head? = r'.head?)
    (hrun : r.takeWhile Attribute.isInner = r'.takeWhile Attribute.isInner) :
    TakesMark exclude r ↔ TakesMark exclude r' := by
  constructor
  · rintro ⟨hstarts, hmarked, hexcluded⟩
    exact ⟨hhead ▸ hstarts, hrun ▸ hmarked, hrun ▸ hexcluded⟩
  · rintro ⟨hstarts, hmarked, hexcluded⟩
    exact ⟨hhead ▸ hstarts, hrun ▸ hmarked, hrun ▸ hexcluded⟩

/-- Where the mark stands already it is read as part of the name. -/
theorem not_takesMark_dataMark (r : Text) : ¬TakesMark exclude (Attribute.dataMark ++ r) := by
  intro h
  refine h.not_marked ?_
  rw [List.takeWhile_append_of_pos fun c hc => Attribute.isInner_of_mem (by decide) hc]
  exact List.prefix_append _ _

theorem insertMarks_of_takesMark {r : Text} (h : TakesMark exclude r) :
    insertMarks exclude ('[' :: r) = '[' :: (Attribute.dataMark ++ insertMarks exclude r) := by
  rw [insertMarks, if_pos ⟨rfl, h⟩]

theorem insertMarks_cons {c : Char} {r : Text} (h : ¬(c = '[' ∧ TakesMark exclude r)) :
    insertMarks exclude (c :: r) = c :: insertMarks exclude r := by
  rw [insertMarks, if_neg h]

theorem insertMarks_append_of_not_mem (exclude : List Text) {u : Text} (h : '[' ∉ u) (v : Text) :
    insertMarks exclude (u ++ v) = u ++ insertMarks exclude v := by
  induction u with
  | nil => rfl
  | cons c u ih =>
    rw [List.mem_cons, not_or] at h
    rw [List.cons_append, insertMarks_cons fun hc => h.1 hc.1.symm, ih h.2, List.cons_append]

/-- Remapping is putting in marks.  A match takes the whole name with it, but as there is no
bracket in a name it goes past no place where a mark could go. -/
theorem text_remapNames (exclude : List Text) (s : Text) :
    (remapNames exclude s).text = insertMarks exclude s := by
  change (bracketed exclude).replaceAll s = insertMarks exclude s
  fun_induction Pattern.replaceAll (bracketed exclude) s with
  | case1 => rfl
  | case2 c r out rest hread ih =>
    obtain ⟨name, he, hname, hrest, rfl⟩ := readBracketed_eq_some_iff.1 hread
    replace he : c :: r = '[' :: (name ++ rest) := he
    obtain ⟨rfl, rfl⟩ := List.cons.inj he
    have hsplit : splitName? (name ++ rest) = some (name, rest) :=
      splitName?_eq_some_iff.2 ⟨rfl, hname, hrest⟩
    have htakes : TakesMark exclude (name ++ rest) ↔ Attribute.isFinal name exclude = false := by
      simp [takesMark_iff, hsplit]
    have hskip : insertMarks exclude (name ++ rest) = name ++ insertMarks exclude rest :=
      insertMarks_append_of_not_mem exclude (not_mem_of_isName hname) rest
    cases hfinal : Attribute.isFinal name exclude with
    | true =>
      have hnot : ¬('[' = '[' ∧ TakesMark exclude (name ++ rest)) := by simp [htakes, hfinal]
      rw [insertMarks_cons hnot, hskip, ih, Attribute.remap, if_pos hfinal]
      rfl
    | false =>
      rw [insertMarks_of_takesMark (htakes.2 hfinal), hskip, ih, Attribute.remap,
        if_neg (by simp [hfinal])]
      simp
  | case3 c r hread ih =>
    have hnot : ¬(c = '[' ∧ TakesMark exclude r) := by
      rintro ⟨rfl, htakes⟩
      obtain ⟨name, hname, _⟩ := takesMark_iff.1 htakes
      obtain ⟨m, hm, _⟩ := Option.map_eq_some_iff.1 hname
      have hread' : readBracketed exclude ('[' :: r) = none := hread
      simp [readBracketed, after?, hm] at hread'
    rw [insertMarks_cons hnot, ih]

/-! ## Cutting between names -/

/-- No bracketed name goes from one text into another: the first ends in a character that
is neither a bracket nor in a name, or the other starts with one that is in no name. -/
def Apart (u v : Text) : Prop :=
  (∃ c, u.getLast? = some c ∧ c ≠ '[' ∧ Attribute.isInner c = false) ∨
    ∀ c, v.head? = some c → Attribute.isInner c = false

theorem Apart.of_append {u w v : Text} (h : Apart (w ++ u) v) (hu : u ≠ []) : Apart u v := by
  refine h.imp_left ?_
  rintro ⟨c, hc, hbracket, hinner⟩
  rw [List.getLast?_append_of_ne_nil _ hu] at hc
  exact ⟨c, hc, hbracket, hinner⟩

/-- What stands behind a cut between names does not change whether a mark goes in in front of
it. -/
theorem takesMark_append {u v : Text} (h : Apart ('[' :: u) v) :
    TakesMark exclude (u ++ v) ↔ TakesMark exclude u := by
  cases u with
  | nil =>
    refine iff_of_false (fun htakes => ?_) fun htakes => by simpa using htakes.starts
    obtain ⟨c, hc, hfirst⟩ := htakes.starts
    rcases h with ⟨d, hd, hbracket, _⟩ | hv
    · exact hbracket (by simpa using hd.symm)
    · have hinner := hv c hc
      rw [Attribute.isInner_of_isFirst hfirst] at hinner
      cases hinner
  | cons a u =>
    refine takesMark_congr rfl ?_
    by_cases hall : ∀ c ∈ a :: u, Attribute.isInner c = true
    · -- The run reaches the cut, so the cut is in front of a character that is in no name.
      rcases h with ⟨d, hd, _, hinner⟩ | hv
      · rw [List.getLast?_cons_cons] at hd
        rw [hall d (List.mem_of_getLast? hd)] at hinner
        cases hinner
      · rw [takeWhile_run hall hv, List.takeWhile_eq_self_iff.2 hall]
    · rw [List.takeWhile_append, if_neg]
      intro hlength
      refine hall (List.takeWhile_eq_self_iff.1 ?_)
      exact (List.takeWhile_prefix _).eq_of_length hlength

/-- Parts of a text with no name across the cut are remapped on their own. -/
theorem remapNames_append {u v : Text} (h : Apart u v) :
    (remapNames exclude (u ++ v)).text =
      (remapNames exclude u).text ++ (remapNames exclude v).text := by
  rw [text_remapNames, text_remapNames, text_remapNames]
  induction u with
  | nil => rfl
  | cons c u ih =>
    have hrest : insertMarks exclude (u ++ v) = insertMarks exclude u ++ insertMarks exclude v := by
      cases u with
      | nil => rfl
      | cons d u => exact ih (Apart.of_append (w := [c]) h (by simp))
    have hplace : c = '[' ∧ TakesMark exclude (u ++ v) ↔ c = '[' ∧ TakesMark exclude u := by
      refine and_congr_right ?_
      rintro rfl
      exact takesMark_append h
    rw [List.cons_append]
    by_cases htakes : c = '[' ∧ TakesMark exclude u
    · obtain ⟨rfl, htakes⟩ := htakes
      rw [insertMarks_of_takesMark (hplace.2 ⟨rfl, htakes⟩).2, insertMarks_of_takesMark htakes,
        hrest]
      simp
    · rw [insertMarks_cons (mt hplace.1 htakes), insertMarks_cons htakes, hrest, List.cons_append]

/-! ## Remapping twice -/

theorem head?_insertMarks (exclude : List Text) (s : Text) :
    (insertMarks exclude s).head? = s.head? := by
  cases s with
  | nil => rfl
  | cons c r =>
    rw [insertMarks]
    split <;> rfl

/-- No mark goes into a run of name characters, or directly behind it. -/
theorem takeWhile_insertMarks (exclude : List Text) (s : Text) :
    (insertMarks exclude s).takeWhile Attribute.isInner = s.takeWhile Attribute.isInner := by
  induction s with
  | nil => rfl
  | cons c r ih =>
    rw [insertMarks]
    split
    · rename_i h
      have hbracket : Attribute.isInner c = false := h.1 ▸ rfl
      simp [hbracket]
    · simp only [List.takeWhile_cons, ih]

/-- Whether a mark goes in at a place is not changed by the marks behind it. -/
theorem takesMark_insertMarks {r : Text} :
    TakesMark exclude (insertMarks exclude r) ↔ TakesMark exclude r :=
  takesMark_congr (head?_insertMarks exclude r) (takeWhile_insertMarks exclude r)

theorem insertMarks_insertMarks (s : Text) :
    insertMarks exclude (insertMarks exclude s) = insertMarks exclude s := by
  induction s with
  | nil => rfl
  | cons c r ih =>
    by_cases h : c = '[' ∧ TakesMark exclude r
    · obtain ⟨rfl, htakes⟩ := h
      rw [insertMarks_of_takesMark htakes,
        insertMarks_cons fun hagain => not_takesMark_dataMark _ hagain.2,
        insertMarks_append_of_not_mem exclude (by decide), ih]
    · rw [insertMarks_cons h, insertMarks_cons (by rwa [takesMark_insertMarks]), ih]

/-- A name is remapped to one that stays, and nothing else is touched. -/
theorem remapNames_remapNames (exclude : List Text) (s : Text) :
    (remapNames exclude (remapNames exclude s).text).text = (remapNames exclude s).text := by
  rw [text_remapNames, text_remapNames, insertMarks_insertMarks]

/-- If attributes are remapped, `data-` is put in behind each bracket in front of a name that
neither has its `data-` form nor is excluded, and nothing else changes.  So remapping the result
changes nothing. -/
theorem text_remapAttributes {o : Options} (hdata : o.dataAttributes = true) (s : Text) :
    (remapAttributes o s).text = insertMarks o.excluded s ∧
      (remapAttributes o (remapAttributes o s).text).text = (remapAttributes o s).text := by
  have hremap : ∀ t, remapAttributes o t = remapNames o.excluded t := by
    intro t
    rw [remapAttributes, if_pos hdata]
  rw [hremap s, hremap, remapNames_remapNames]
  exact ⟨text_remapNames o.excluded s, rfl⟩

/-- Excluded names and longer ones, a bracket behind a name, names that only start like the mark,
a name that a letter outside of names ends, and texts that are no names. -/
theorem text_remapAttributes_neighbours :
    let o : Options :=
      { dataAttributes := true, excludeFromData := some ["part".toList, "data".toList] }
    let s := "[part][parts][pa[[data-x] [data] [data_y][_\u00e9] [1b] [-c] [ d][".toList
    o.dataAttributes = true ∧ (remapAttributes o s).text = insertMarks o.excluded s ∧
      (remapAttributes o s).text =
        "[part][data-parts][data-pa[[data-x] [data] ".toList ++
          "[data-data_y][data-_\u00e9] [1b] [-c] [ d][".toList ∧
      (remapAttributes o (remapAttributes o s).text).text = (remapAttributes o s).text := by
  intro o s
  have hdata : o.dataAttributes = true := rfl
  obtain ⟨hmarks, htwice⟩ := text_remapAttributes hdata s
  exact ⟨hdata, hmarks, by decide +kernel, htwice⟩

end Selector

end HostSheet
