import Mathlib
import HostSheet.Proofs.Unwrapping

set_option autoImplicit false

/-!
# The contents of a host block, line by line

Unwrapping goes through a body character by character and drops each run of white space that
starts with a line, whatever line ends the run goes over.  Said of lines: each loses the white
space at its start, and those with nothing left are gone (`contents_eq_flush`).  Only a line feed
ends a line; a carriage return in front of it stays with its line.  A text is unwrapped block by
block, and what stands in front of the first one stays (`text_unwrap_block`).
-/

namespace HostSheet

open Text

namespace Text

/-! ## Lines -/

theorem splitOn_append_cons {l : Text} (hl : '\n' ∉ l) (r : Text) :
    (l ++ '\n' :: r).splitOn '\n' = l :: r.splitOn '\n' :=
  List.splitOnP_append_cons_of_forall_mem
    (fun _ hc => beq_false_of_ne (ne_of_mem_of_not_mem hc hl)) '\n' rfl r

theorem splitOn_of_not_mem {l : Text} (hl : '\n' ∉ l) : l.splitOn '\n' = [l] := by
  have hsplit : (['\n'].intercalate [l]).splitOn '\n' = [l] :=
    List.splitOn_intercalate '\n' (by simpa using hl) (by simp)
  simpa using hsplit

/-- A text is a line, or a line and a text behind its line feed. -/
theorem line_induction {P : Text → Prop} (last : ∀ l, '\n' ∉ l → P l)
    (line : ∀ l r, '\n' ∉ l → P r → P (l ++ '\n' :: r)) (s : Text) : P s := by
  induction hn : s.length using Nat.strong_induction_on generalizing s with
  | _ n ih =>
  by_cases hs : '\n' ∈ s
  · obtain ⟨l, r, rfl, hl⟩ := List.eq_append_cons_of_mem hs
    refine line l r hl (ih r.length ?_ r rfl)
    rw [← hn, List.length_append, List.length_cons]
    omega
  · exact last s hs

/-- The last character of a text without the characters at its end is none of these. -/
theorem getLast?_dropEnd {p : Char → Bool} {s : Text} {c : Char}
    (h : (dropEnd p s).getLast? = some c) : p c = false := by
  rw [dropEnd, List.getLast?_reverse] at h
  exact head?_dropWhile h

end Text

namespace HostBlock

/-- The lines of a text without the white space at their starts, but for those that are left
empty. -/
def flushLines (s : Text) : List Text :=
  ((s.splitOn '\n').map (dropStart isSpace)).filter (!·.isEmpty)

/-- A body without white space at its ends, put together again from its lines. -/
def flush (body : Text) : Text := ['\n'].intercalate (flushLines (trim body))

theorem flushLines_of_not_mem {l : Text} (hl : '\n' ∉ l) :
    flushLines l = [dropStart isSpace l].filter (!·.isEmpty) := by
  rw [flushLines, splitOn_of_not_mem hl]
  rfl

theorem flushLines_append_cons {l : Text} (hl : '\n' ∉ l) (r : Text) :
    flushLines (l ++ '\n' :: r) =
      [dropStart isSpace l].filter (!·.isEmpty) ++ flushLines r := by
  rw [flushLines, splitOn_append_cons hl, List.map_cons, ← List.singleton_append,
    List.filter_append]
  rfl

/-- A text that has more than white space has a line that is left. -/
theorem flushLines_ne_nil {s : Text} {c : Char} (hc : c ∈ s) (hspace : isSpace c = false) :
    flushLines s ≠ [] := by
  have hkept : ∀ {l : Text}, c ∈ l → [dropStart isSpace l].filter (!·.isEmpty) ≠ [] := by
    intro l hl hnone
    have hdrop : l.dropWhile isSpace = [] := by simpa [dropStart] using hnone
    rw [List.dropWhile_eq_nil_iff.1 hdrop c hl] at hspace
    cases hspace
  induction s using line_induction with
  | last l hl =>
    rw [flushLines_of_not_mem hl]
    exact hkept hc
  | line l r hl ih =>
    rw [flushLines_append_cons hl]
    intro hnone
    obtain ⟨hline, hrest⟩ := List.append_eq_nil_iff.1 hnone
    rcases List.mem_append.1 hc with hc | hc
    · exact hkept hc hline
    · rcases List.mem_cons.1 hc with rfl | hc
      · cases hspace
      · exact ih hc hrest

/-! ## Runs of white space and lines -/

/-- In the middle of a line nothing is dropped. -/
theorem flushLeft_false_append {l : Text} (hl : '\n' ∉ l) (r : Text) :
    flushLeft false (l ++ r) = l ++ flushLeft false r := by
  induction l with
  | nil => rfl
  | cons c l ih =>
    rw [List.mem_cons, not_or] at hl
    rw [List.cons_append, flushLeft, Bool.false_and, beq_false_of_ne (Ne.symm hl.1)]
    exact congrArg (c :: ·) (ih hl.2)

/-- At its start a line loses its white space.  If that is all of it, the next line starts. -/
theorem flushLeft_true_append {l : Text} (hl : '\n' ∉ l) (r : Text) :
    flushLeft true (l ++ r) =
      if dropStart isSpace l = [] then flushLeft true r
      else dropStart isSpace l ++ flushLeft false r := by
  induction l with
  | nil => rfl
  | cons c l ih =>
    rw [List.mem_cons, not_or] at hl
    cases hc : isSpace c with
    | true =>
      rw [List.cons_append, flushLeft, hc, dropStart, List.dropWhile_cons_of_pos hc]
      exact ih hl.2
    | false =>
      have hkeep : dropStart isSpace (c :: l) = c :: l :=
        List.dropWhile_cons_of_neg (by simp [hc])
      rw [hkeep, if_neg (List.cons_ne_nil c l), List.cons_append,
        flushLeft_cons_of_not_isSpace hc, flushLeft_false_append hl.2]
      rfl

/-- Where no white space stands at the end, dropping runs at the starts of lines is dropping the
white space of each line and the lines left empty. -/
theorem flushLeft_true_eq {s : Text} (h : ∀ c, s.getLast? = some c → isSpace c = false) :
    flushLeft true s = ['\n'].intercalate (flushLines s) := by
  induction s using line_induction with
  | last l hl =>
    have hline := flushLeft_true_append hl []
    rw [List.append_nil] at hline
    rw [hline, flushLines_of_not_mem hl]
    by_cases hnone : dropStart isSpace l = []
    · rw [if_pos hnone, hnone]
      rfl
    · rw [if_neg hnone]
      simp [flushLeft, hnone]
  | line l r hl ih =>
    -- The line feed is white space, so it is not the last character.
    have hr : r ≠ [] := by
      rintro rfl
      have := h '\n' (by simp)
      cases this
    have hlast : (l ++ '\n' :: r).getLast? = r.getLast? := by
      rw [← List.singleton_append, ← List.append_assoc, List.getLast?_append_of_ne_nil _ hr]
    rw [hlast] at h
    have hc := h _ (List.getLast?_eq_some_getLast hr)
    have hkept : flushLines r ≠ [] := flushLines_ne_nil (List.getLast_mem hr) hc
    have hbreak : flushLeft false ('\n' :: r) = '\n' :: flushLeft true r := rfl
    have hskip : flushLeft true ('\n' :: r) = flushLeft true r := rfl
    rw [flushLeft_true_append hl, flushLines_append_cons hl, hbreak, hskip, ih h]
    by_cases hnone : dropStart isSpace l = []
    · rw [if_pos hnone, hnone]
      rfl
    · have hline : [dropStart isSpace l].filter (!·.isEmpty) = [dropStart isSpace l] := by
        simp [hnone]
      rw [if_neg hnone, hline, List.singleton_append, List.intercalate_cons_of_ne_nil hkept,
        List.append_assoc]
      rfl

/-- The contents of a block are its body line by line. -/
theorem contents_eq_flush (body : Text) : contents body = flush body :=
  flushLeft_true_eq fun _ hc => getLast?_dropEnd hc

/-! ## Blocks one after the other -/

/-- In front of `:host` a text without `:host` stays without it: behind its colon `:host` has no
other, so none reaches from the text into the next. -/
theorem clear_append_host {t : Text} (h : Selector.mentionsHost t = false) (w : Text) :
    Clear t (hostSelector ++ w) := by
  induction t with
  | nil => trivial
  | cons c t ih =>
    rw [Selector.mentionsHost, occursIn, Bool.or_eq_false_iff] at h
    refine ⟨fun hprefix => ?_, ih h.2⟩
    obtain ⟨rfl, htail⟩ := List.cons_prefix_cons.1 hprefix
    have hcolon : ':' ∉ ['h', 'o', 's', 't'] := by decide
    rw [← List.isPrefixOf_iff_prefix, hostSelector, List.cons_append,
      Syntax.isPrefixOf_seam hcolon, List.isPrefixOf_iff_prefix] at htail
    have hfront : hostSelector.isPrefixOf (':' :: t) = true :=
      List.isPrefixOf_iff_prefix.2 (List.cons_prefix_cons.2 ⟨rfl, htail⟩)
    rw [h.1] at hfront
    cases hfront

/-- The first host block of a text is replaced by its body line by line.  What stands in front of
it stays, and the text behind it is unwrapped on its own. -/
theorem text_unwrap_block {front space body rest : Text}
    (hfront : Selector.mentionsHost front = false) (hspace : ∀ c ∈ space, isSpace c = true)
    (hbody : '\x7d' ∉ body) :
    (unwrap (front ++ hostSelector ++ space ++ '\x7b' :: body ++ '\x7d' :: rest)).text =
      front ++ flush body ++ (unwrap rest).text := by
  have hread : block.read (hostSelector ++ space ++ '\x7b' :: body ++ '\x7d' :: rest) =
      some (contents body, rest) :=
    readBlock_eq_some_iff.2 ⟨space, body, rfl, hspace, hbody, rfl⟩
  calc block.replaceAll (front ++ hostSelector ++ space ++ '\x7b' :: body ++ '\x7d' :: rest)
      = block.replaceAll
          (front ++ (hostSelector ++ (space ++ '\x7b' :: body ++ '\x7d' :: rest))) := by simp
    _ = front ++ block.replaceAll (hostSelector ++ space ++ '\x7b' :: body ++ '\x7d' :: rest) := by
        rw [replaceAll_append_of_clear (fun _ => isPrefix_of_read) (clear_append_host hfront _)]
        simp
    _ = front ++ (contents body ++ block.replaceAll rest) := by
        rw [Pattern.replaceAll_of_read_eq_some hread]
    _ = front ++ flush body ++ block.replaceAll rest := by
        rw [contents_eq_flush, List.append_assoc]

/-- Two blocks behind a text that breaks off in `:hos`.  The first has carriage returns, an empty
line, one with blanks only, and a line separator, which is white space but ends no line. -/
theorem text_unwrap_block_lines :
    let front := "a \x7d:hos".toList
    let space := "\u2028\n ".toList
    let body := "\r\n  b: c;  \r\n \t\n\n\u2028 d: \u2028e;\n".toList
    let rest := " f \x7b:host\x7b g: h \x7d\x7d".toList
    (Selector.mentionsHost front = false ∧ (∀ c ∈ space, isSpace c = true) ∧ '\x7d' ∉ body) ∧
      (unwrap (front ++ hostSelector ++ space ++ '\x7b' :: body ++ '\x7d' :: rest)).text =
        front ++ flush body ++ (unwrap rest).text ∧
      flush body = "b: c;  \r\nd: \u2028e;".toList ∧
      (unwrap rest).text = " f \x7bg: h\x7d".toList := by
  intro front space body rest
  have hfront : Selector.mentionsHost front = false := by decide +kernel
  have hspace : ∀ c ∈ space, isSpace c = true := List.all_eq_true.1 (by decide +kernel)
  have hbody : '\x7d' ∉ body := by decide +kernel
  exact ⟨⟨hfront, hspace, hbody⟩, text_unwrap_block hfront hspace hbody, by decide +kernel,
    by decide +kernel⟩

end HostBlock

end HostSheet
