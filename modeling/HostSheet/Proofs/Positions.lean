import Mathlib
import HostSheet.Proofs.Refusals
import HostSheet.Proofs.RoundTrip

set_option autoImplicit false

/-!
# Where a fault points

The reader counts characters, and a fault carries an offset: that of the token it refuses,
or one it has kept since a statement or a block began.  `Reader.Located` says that what is
kept is right: the open statement and the opening brackets stand where the reader has them.
So every fault points at its cause (`Fault.Points`).

The offset is told as a line and a column.  `Position.start_after` gives both without the
walk that finds them: the lines are the line ends in front of the offset, and the column is
the length of the last line.
-/

namespace HostSheet

open Syntax

/-! ## Lines and columns -/

namespace Syntax.Position

/-- The number of line ends of a text.  A carriage return and the line feed after it end one
line together. -/
def lineEnds : Text → Nat
  | [] => 0
  | '\r' :: '\n' :: r => lineEnds r + 1
  | c :: r => if isNewline c then lineEnds r + 1 else lineEnds r

/-- What stands behind the last line end of a text. -/
def lastLine (s : Text) : Text := Text.takeEnd (!isNewline ·) s

/-- The number of UTF-16 code units of a text. -/
def utf16Length (s : Text) : Nat := (s.map units).sum

theorem lastLine_append (s t : Text) :
    lastLine (s ++ t) = if t.any isNewline then lastLine t else lastLine s ++ t := by
  simp only [lastLine, Text.takeEnd, List.reverse_append, List.takeWhile_append]
  by_cases ht : t.any isNewline = true
  · have hshort : (t.reverse.takeWhile (!isNewline ·)).length ≠ t.reverse.length := by
      intro hlen
      have hself := (List.takeWhile_prefix _).eq_of_length hlen
      rw [List.takeWhile_eq_self_iff] at hself
      simp only [List.any_eq_true] at ht
      obtain ⟨c, hc, hnewline⟩ := ht
      simpa [hnewline] using hself c (List.mem_reverse.2 hc)
    rw [if_neg hshort, if_pos ht]
  · have hself : t.reverse.takeWhile (!isNewline ·) = t.reverse := by
      rw [List.takeWhile_eq_self_iff]
      simpa using ht
    rw [hself, if_pos rfl, if_neg ht, List.reverse_append, List.reverse_reverse]

theorem lastLine_eq_self {s : Text} (h : s.any isNewline = false) : lastLine s = s := by
  have happend := lastLine_append [] s
  rw [if_neg (by simp [h])] at happend
  exact happend

theorem lastLine_cons_of_isNewline {c : Char} {r : Text} (hc : isNewline c = true) :
    lastLine (c :: r) = lastLine r := by
  have hnil : lastLine [c] = [] := by simp [lastLine, Text.takeEnd, hc]
  rw [← List.singleton_append, lastLine_append, hnil, List.nil_append]
  split
  · rfl
  · rename_i hr
    rw [lastLine_eq_self (by simpa using hr)]

/-- The position after a text: a line for each line end, and the column after the last of
them, or after the start if there is none. -/
theorem after_eq (p : Position) (s : Text) :
    p.after s = ⟨p.line + lineEnds s,
      (if s.any isNewline then 1 else p.column) + utf16Length (lastLine s)⟩ := by
  fun_induction after p s with
  | case1 p => rfl
  | case2 p => rfl
  | case3 p r ih =>
    have hlast : lastLine ('\r' :: '\n' :: r) = lastLine r := by
      rw [lastLine_cons_of_isNewline rfl, lastLine_cons_of_isNewline rfl]
    have hany : ('\r' :: '\n' :: r).any isNewline = true := rfl
    rw [ih, hlast, hany, lineEnds]
    simp only [ite_self, if_true]
    congr 1
    omega
  | case4 p c r hend hpair hc ih =>
    have hlines : lineEnds (c :: r) = lineEnds r + 1 := by
      rw [lineEnds.eq_3 c r hpair, if_pos hc]
    have hany : (c :: r).any isNewline = true := by simp [hc]
    rw [ih, lastLine_cons_of_isNewline hc, hany, hlines]
    simp only [ite_self, if_true]
    congr 1
    omega
  | case5 p c r hend hpair hc ih =>
    have hlines : lineEnds (c :: r) = lineEnds r := by
      rw [lineEnds.eq_3 c r hpair, if_neg hc]
    have hany : (c :: r).any isNewline = r.any isNewline := by simp [hc]
    have hsingle : lastLine [c] = [c] := lastLine_eq_self (by simp [hc])
    rw [ih, hany, hlines, ← List.singleton_append, lastLine_append, hsingle]
    by_cases hr : r.any isNewline = true
    · simp only [hr, if_true]
    · have hself : lastLine r = r := lastLine_eq_self (by simpa using hr)
      simp only [hr, if_false, Bool.false_eq_true, hself, utf16Length, List.singleton_append,
        List.map_cons, List.sum_cons]
      congr 1
      omega

theorem start_after (s : Text) :
    start.after s = ⟨1 + lineEnds s, 1 + utf16Length (lastLine s)⟩ := by
  rw [after_eq]
  simp [start]

end Syntax.Position

/-! ## Causes -/

namespace Defect

/-- Whether a text starts with what a defect is blamed on: a bracket, a quote, the mark of a
comment, or the word itself.  Nothing is to blame for an invalid text. -/
def IsAtFront (v : Text) : Defect → Prop
  | unclosedBlock | missingSelector => ['\x7b'] <+: v
  | unexpectedClosingBrace => ['\x7d'] <+: v
  | unclosedString => ['"'] <+: v ∨ ['\''] <+: v
  | unclosedComment => ['/', '*'] <+: v
  | unknownWord word => word ≠ [] ∧ word <+: v
  | invalid => False

theorem IsAtFront.append {v : Text} {d : Defect} (h : d.IsAtFront v) (w : Text) :
    d.IsAtFront (v ++ w) := by
  have hp : ∀ {u : Text}, u <+: v → u <+: v ++ w := fun h => h.trans (List.prefix_append v w)
  cases d with
  | unclosedBlock => exact hp h
  | missingSelector => exact hp h
  | unexpectedClosingBrace => exact hp h
  | unclosedString => exact h.imp hp hp
  | unclosedComment => exact hp h
  | unknownWord word => exact ⟨h.1, hp h.2⟩
  | invalid => exact h

/-- What is blamed on something is not invalid alone. -/
theorem IsAtFront.ne_invalid {v : Text} {d : Defect} (h : d.IsAtFront v) : d ≠ .invalid := by
  rintro rfl
  exact h

end Defect

/-- A fault points at its cause in a text. -/
def Fault.Points (s : Text) (f : Fault) : Prop :=
  ∃ u v, s = u ++ v ∧ u.length = f.offset ∧ f.cause.toDefect.IsAtFront v

theorem Fault.Points.append {s : Text} {f : Fault} (h : f.Points s) (w : Text) :
    f.Points (s ++ w) := by
  obtain ⟨u, v, rfl, hu, hv⟩ := h
  exact ⟨u, v ++ w, List.append_assoc u v w, hu, hv.append w⟩

/-! ## What a reader keeps -/

namespace Draft

theorem offset_of_take? {d d' : Draft} {t : Token} (h : d.take? t = some d') :
    d'.offset = d.offset := by
  cases takes_of_take? h with
  | blank c hb => rfl
  | name name hb hf => rfl
  | colon hb =>
    unfold addColon
    split <;> rfl
  | add t brackets => rfl

end Draft

namespace Reader

/-- The reader has read the text `s`, and what it keeps stands where it says. -/
structure Located (s : Text) (r : Reader) : Prop where
  offset : r.offset = s.length
  /-- Each open block was opened by a bracket. -/
  braces : ∀ b ∈ r.blocks, Fault.Points s ⟨.defect .unclosedBlock, b.brace⟩
  /-- The open statement reaches from its offset to the end. -/
  statement : ∃ u, s = u ++ r.statement.text ∧ u.length = r.statement.offset
  started : ∀ d, r.draft = some d → d.isFresh = false

theorem located_start : Located [] {} where
  offset := rfl
  braces := nofun
  statement := ⟨[], rfl, rfl⟩
  started := nofun

/-- Where no statement is open, there is nothing to say about it. -/
theorem Located.of_draft_eq_none {s : Text} {r : Reader} (hd : r.draft = none)
    (hoffset : r.offset = s.length)
    (hbraces : ∀ b ∈ r.blocks, Fault.Points s ⟨.defect .unclosedBlock, b.brace⟩) : r.Located s where
  offset := hoffset
  braces := hbraces
  statement := by
    rw [statement_of_draft_eq_none hd]
    exact ⟨s, (List.append_nil s).symm, hoffset.symm⟩
  started := by simp [hd]

/-- A statement that ends without a meaning stands at its offset. -/
theorem Located.points_of_unfinished {s : Text} {r : Reader} {f : Fault} (h : r.Located s)
    (hf : r.Unfinished f) : f.Points s := by
  obtain ⟨hd, hname, hcolon⟩ := hf
  rename_i d
  obtain ⟨u, hs, hu⟩ := h.statement
  rw [statement_of_draft hd] at hs hu
  have htext : d.text = d.content ++ d.gap := by simp [Draft.text, hname]
  have hfresh := h.started d hd
  refine ⟨u, d.text, hs, hu, ?_, ?_⟩
  · rintro hempty
    simp [Draft.isFresh, hname, Draft.content] at hfresh hempty
    exact hfresh hempty
  · rw [htext]
    exact List.prefix_append _ _

/-- A token that is refused stands at the offset of its fault, or the statement does that it
would end. -/
theorem Located.points_of_refuses {s : Text} {r : Reader} {t : Token} {f : Fault}
    (h : r.Located s) (ht : t.IsRead) (hf : r.Refuses t f) : f.Points (s ++ t.text) := by
  have hhere : ∀ {d : Defect}, d.IsAtFront t.text →
      Fault.Points (s ++ t.text) ⟨.defect d, r.offset⟩ :=
    fun hd => ⟨s, t.text, rfl, h.offset.symm, hd⟩
  cases hf with
  | comment body hb => exact hhere ⟨body, rfl⟩
  | string hb hc =>
    obtain ⟨c, raw, rfl, rfl | rfl⟩ := ht.quoted
    · exact hhere (.inl ⟨raw, rfl⟩)
    · exact hhere (.inr ⟨raw, rfl⟩)
  | selector name hb hh =>
    obtain rfl := ht.opener_curly
    exact hhere ⟨[], rfl⟩
  | word hend hb hf => exact (h.points_of_unfinished hf).append t.text
  | brace hb hblocks => exact hhere ⟨[], rfl⟩

/-- What a reader keeps stays right when a token is taken. -/
theorem Located.move {s : Text} {r r' : Reader} {t : Token} (h : r.Located s) (ht : t.IsRead)
    (hm : r.Move t r') :
    Located (s ++ t.text) { r' with offset := r.offset + t.text.length } := by
  have hoffset : r.offset + t.text.length = (s ++ t.text).length := by
    rw [List.length_append, h.offset]
  have hbraces : ∀ b ∈ r.blocks, Fault.Points (s ++ t.text) ⟨.defect .unclosedBlock, b.brace⟩ :=
    fun b hb => (h.braces b hb).append t.text
  cases hm with
  | blank c hd => exact .of_draft_eq_none hd hoffset hbraces
  | stray hd => exact .of_draft_eq_none hd hoffset hbraces
  | comment body hd => exact .of_draft_eq_none rfl hoffset hbraces
  | @take _ d hs htake =>
    have htakes := Draft.takes_of_take? htake
    -- Whether a statement was open or not, nothing was held back in front of its start.
    have hfresh : r.statement.isFresh = true → r.draft = none ∧ r.statement.gap = [] := by
      intro hf
      cases hd : r.draft with
      | none => exact ⟨rfl, by rw [statement_of_draft_eq_none hd]⟩
      | some d₀ =>
        rw [statement_of_draft hd, h.started d₀ hd] at hf
        cases hf
    obtain ⟨u, hu, hlen⟩ := h.statement
    refine ⟨hoffset, hbraces, ⟨u, ?_, ?_⟩, ?_⟩
    · change s ++ t.text = u ++ d.text
      rw [htakes.text fun hf => (hfresh hf).2, ← List.append_assoc, ← hu]
    · change u.length = d.offset
      rw [hlen, Draft.offset_of_take? htake]
    · intro d' hd'
      obtain rfl := Option.some.inj hd'
      exact htakes.isFresh ht.text_ne_nil fun hf => hs (hfresh hf).1
  | @terminate d n hd hb hn => exact .of_draft_eq_none rfl hoffset hbraces
  | @enter name d head hd hb hh =>
    obtain rfl := ht.opener_curly
    refine .of_draft_eq_none rfl hoffset fun b hmem => ?_
    rcases List.mem_cons.1 hmem with rfl | hmem
    · exact ⟨s, ['\x7b'], rfl, h.offset.symm, List.prefix_rfl⟩
    · exact hbraces b hmem
  | @close r₁ b blocks hs hd hb =>
    refine .of_draft_eq_none rfl hoffset fun b' hmem => hbraces b' ?_
    rw [← hs.blocks_eq, hb]
    exact List.mem_cons_of_mem _ hmem

/-- What a reader keeps is right after any reading. -/
theorem Located.run {s : Text} {ts : List Token} {r r' : Reader} (h : r.Located s)
    (hread : ∀ t ∈ ts, t.IsRead) (hr : r.run ts = .ok r') :
    r'.Located (s ++ Token.textOf ts) := by
  induction ts generalizing s r with
  | nil =>
    rw [run_nil] at hr
    cases hr
    simpa using h
  | cons t ts ih =>
    rw [run_cons] at hr
    cases hs : r.step t with
    | error e => rw [hs] at hr; cases hr
    | ok r₁ =>
      rw [hs] at hr
      obtain ⟨r₂, hm, rfl⟩ := move_of_step hs
      rw [Token.textOf_cons, ← List.append_assoc]
      exact ih (h.move (hread t List.mem_cons_self) hm)
        (fun u hu => hread u (List.mem_cons_of_mem _ hu)) hr

end Reader

namespace Sheet

/-- Every fault that is found in a text points at its cause. -/
theorem exists_points_of_parse {s : Text} {e : ParseError} (h : parse s = .error e) :
    ∃ f : Fault, e = f.locate s ∧ f.Points s := by
  have hread : ∀ t ∈ Token.ofText s, t.IsRead := fun t => Token.isRead_of_mem_ofText
  obtain ⟨f, rfl, ⟨us, t, vs, r, hsplit, hr, hf⟩ | ⟨r, hr, hf⟩⟩ := exists_fault_of_parse h
  · rw [hsplit] at hread
    have hl := Reader.located_start.run (fun u hu => hread u (List.mem_append_left _ hu)) hr
    have hp := hl.points_of_refuses (hread t (by simp)) hf
    have htext : [] ++ Token.textOf us ++ t.text ++ Token.textOf vs = s := by
      rw [← Token.textOf_ofText s, hsplit]
      simp
    exact ⟨f, rfl, htext ▸ hp.append (Token.textOf vs)⟩
  · have hl := Reader.located_start.run hread hr
    rw [List.nil_append, Token.textOf_ofText] at hl
    refine ⟨f, rfl, ?_⟩
    rcases hf with hf | ⟨b, hb, rfl⟩
    · exact hl.points_of_unfinished hf
    · exact hl.braces b hb

/-- Every parse error points at its cause.  It is never for an invalid text alone.  Its line is
one more than the line ends in front of some place in the text, its column one more than the
UTF-16 length of what stands between the last of these and the place, and at the place stands
what the defect is blamed on. -/
theorem position_of_parse_error {s : Text} {e : ParseError} (h : parse s = .error e) :
    e.defect ≠ .invalid ∧
      ∃ u v, s = u ++ v ∧ e.position.line = 1 + Position.lineEnds u ∧
        e.position.column = 1 + Position.utf16Length (Position.lastLine u) ∧
        e.defect.IsAtFront v := by
  obtain ⟨f, rfl, u, v, rfl, hu, hv⟩ := exists_points_of_parse h
  have hposition : (f.locate (u ++ v)).position =
      ⟨1 + Position.lineEnds u, 1 + Position.utf16Length (Position.lastLine u)⟩ := by
    rw [← Position.start_after, Fault.locate, Position.ofOffset, ← hu, List.take_left]
  exact ⟨hv.ne_invalid, u, v, rfl, by rw [hposition], by rw [hposition], hv⟩

/-- A word without a colon in a block, behind a comment with a carriage return and a line feed
in it and a character of two code units. -/
theorem position_of_parse_error_word :
    parse "a\x7b/*\r\n😀*/é y;\x7d".toList = .error ⟨.unknownWord "é y".toList, ⟨2, 5⟩⟩ ∧
      Defect.unknownWord "é y".toList ≠ .invalid ∧
      ∃ u v, "a\x7b/*\r\n😀*/é y;\x7d".toList = u ++ v ∧ 2 = 1 + Position.lineEnds u ∧
        5 = 1 + Position.utf16Length (Position.lastLine u) ∧
        (Defect.unknownWord "é y".toList).IsAtFront v := by
  have h : parse "a\x7b/*\r\n😀*/é y;\x7d".toList =
      .error ⟨.unknownWord "é y".toList, ⟨2, 5⟩⟩ := by decide +kernel
  exact ⟨h, position_of_parse_error h⟩

end Sheet

end HostSheet
