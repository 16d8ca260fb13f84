import Mathlib
import HostSheet.Proofs.Moves

set_option autoImplicit false

/-!
# What the reader refuses

`Reader.Move` lists what a token can do to a reader that accepts it.  Here are the other
cases: `Reader.Refuses` lists the tokens that a reader does not accept, each with the fault
that is reported.  A reading that fails has come to such a token, or to the end of the text
with a statement or a block that cannot end there.
-/

namespace HostSheet

open Syntax

namespace Draft

/-- Only a statement with neither a name nor a colon has no node. -/
theorem node_eq_error {d : Draft} {before after : Text} {f : Fault}
    (h : d.node before after = .error f) :
    d.name = none ∧ d.colon = none ∧ f = ⟨.defect (.unknownWord d.content), d.offset⟩ := by
  unfold node at h
  split at h
  · cases h
  · cases h
  · rename_i hname hcolon
    exact ⟨hname, hcolon, (Except.error.inj h).symm⟩

end Draft

namespace Reader

/-- The fault of an open statement that cannot end. -/
inductive Unfinished (r : Reader) : Fault → Prop
  | word {d : Draft} (hd : r.draft = some d) (hname : d.name = none)
      (hcolon : d.colon = none) : Unfinished r ⟨.defect (.unknownWord d.content), d.offset⟩

/-- The tokens that a reader does not accept, with the fault that is reported.  Inside round
and square brackets it accepts every token. -/
inductive Refuses (r : Reader) : Token → Fault → Prop
  | comment (body : Text) (hb : r.statement.brackets = []) :
      Refuses r (.comment body false) ⟨.defect .unclosedComment, r.offset⟩
  | string {raw : Text} (hb : r.statement.brackets = []) (hc : closesString raw = false) :
      Refuses r (.quoted raw) ⟨.defect .unclosedString, r.offset⟩
  /-- A bracket that opens a block in first place. -/
  | selector (name : Text) (hb : r.statement.brackets = [])
      (hh : r.statement.blockHead? r.before = none) :
      Refuses r (.opener name .curly) ⟨.defect .missingSelector, r.offset⟩
  /-- The end of a statement that has no meaning. -/
  | word {t : Token} {f : Fault} (ht : t = .semicolon ∨ t = .closer .curly)
      (hb : r.statement.brackets = []) (hf : r.Unfinished f) : Refuses r t f
  /-- A bracket that closes a block where none is open. -/
  | brace (hb : r.statement.brackets = []) (hblocks : r.blocks = []) :
      Refuses r (.closer .curly) ⟨.defect .unexpectedClosingBrace, r.offset⟩

theorem unfinished_of_node {r : Reader} {d : Draft} {before after : Text} {f : Fault}
    (hd : r.draft = some d) (h : d.node before after = .error f) : r.Unfinished f := by
  obtain ⟨hname, hcolon, rfl⟩ := Draft.node_eq_error h
  exact .word hd hname hcolon

theorem terminate_eq_error {r : Reader} {d : Draft} {f : Fault} (hd : r.draft = some d)
    (h : r.terminate d = .error f) : r.Unfinished f := by
  unfold terminate at h
  cases hn : d.node r.before d.gap with
  | ok n => rw [hn] at h; cases h
  | error e =>
    rw [hn] at h
    cases h
    exact unfinished_of_node hd hn

theorem cutOff_eq_error {r : Reader} {d : Draft} {f : Fault} (hd : r.draft = some d)
    (h : r.cutOff d = .error f) : r.Unfinished f := by
  unfold cutOff at h
  cases hn : d.node r.before [] with
  | ok n => rw [hn] at h; cases h
  | error e =>
    rw [hn] at h
    cases h
    exact unfinished_of_node hd hn

theorem leave_eq_error {r : Reader} {f : Fault} (h : r.leave = .error f) :
    r.blocks = [] ∧ f = ⟨.defect .unexpectedClosingBrace, r.offset⟩ := by
  unfold leave at h
  split at h
  · rename_i hb
    exact ⟨hb, (Except.error.inj h).symm⟩
  · cases h

theorem enter_eq_error {r : Reader} {d : Draft} {f : Fault} (h : r.enter d = .error f) :
    d.blockHead? r.before = none ∧ f = ⟨.defect .missingSelector, r.offset⟩ := by
  unfold enter at h
  unfold Draft.blockHead?
  cases hname : d.name with
  | some name => rw [hname] at h; cases h
  | none =>
    rw [hname] at h
    dsimp only at h ⊢
    by_cases hr : d.reversed.isEmpty = true
    · rw [if_pos hr] at h ⊢
      exact ⟨rfl, (Except.error.inj h).symm⟩
    · rw [if_neg hr] at h
      cases h

/-- The reader refuses a token of the statement `d`, which is open or starts with it. -/
theorem refuses_of_extend {r : Reader} {d : Draft} {t : Token} {f : Fault}
    (hd : r.draft = some d ∨ r.draft = none ∧ t.startsStatement = true)
    (hs : r.statement = d) (h : r.extend d t = .error f) : r.Refuses t f := by
  -- A token that ends a statement cannot start one.
  have hopen : t.startsStatement = false → r.draft = some d := fun ht =>
    hd.resolve_right fun hn => by rw [hn.2] at ht; cases ht
  unfold extend at h
  by_cases hb : d.brackets = []
  case neg =>
    rw [if_pos hb] at h
    cases h
  rw [if_neg (not_not_intro hb)] at h
  subst hs
  cases t with
  | semicolon => exact .word (.inl rfl) hb (terminate_eq_error (hopen rfl) h)
  | opener name b =>
    cases b with
    | curly =>
      obtain ⟨hh, rfl⟩ := enter_eq_error h
      exact .selector name hb hh
    | round => cases h
    | square => cases h
  | closer b =>
    cases b with
    | curly =>
      cases hc : r.cutOff r.statement with
      | error e =>
        simp only [hc] at h
        cases h
        exact .word (.inr rfl) hb (cutOff_eq_error (hopen rfl) hc)
      | ok r₁ =>
        simp only [hc] at h
        obtain ⟨hblocks, rfl⟩ := leave_eq_error h
        cases cutOff_eq_ok (hopen rfl) hc with
        | none => exact .brace hb hblocks
        | some => exact .brace hb hblocks
    | round => cases h
    | square => cases h
  | comment body isClosed =>
    cases isClosed with
    | true => cases h
    | false => cases h; exact .comment body hb
  | quoted raw =>
    dsimp only at h
    by_cases hc : closesString raw = true
    · rw [if_pos hc] at h
      cases h
    · rw [if_neg hc] at h
      cases h
      exact .string hb (by simpa using hc)
  | blank c => cases h
  | colon => cases h
  | atName name => cases h
  | other raw => cases h

/-- A step that fails has met a token that is refused. -/
theorem refuses_of_step {r : Reader} {t : Token} {f : Fault} (h : r.step t = .error f) :
    r.Refuses t f := by
  unfold step at h
  cases hd : r.draft with
  | some d =>
    rw [hd] at h
    cases he : r.extend d t with
    | ok r₁ => simp only [he] at h; cases h
    | error e =>
      simp only [he] at h
      cases h
      exact refuses_of_extend (.inl hd) (statement_of_draft hd) he
  | none =>
    rw [hd] at h
    have hstatement := statement_of_draft_eq_none hd
    have hb : r.statement.brackets = [] := by rw [hstatement]
    cases he : r.start t with
    | ok r₁ => simp only [he] at h; cases h
    | error e =>
      simp only [he] at h
      cases h
      by_cases hs : t.startsStatement = true
      · rw [start_of_startsStatement hs] at he
        exact refuses_of_extend (.inr ⟨hd, hs⟩) hstatement he
      · cases t with
        | blank c => cases he
        | semicolon => cases he
        | comment body isClosed =>
          cases isClosed with
          | true => cases he
          | false => cases he; exact .comment body hb
        | closer b =>
          cases b with
          | curly =>
            obtain ⟨hblocks, rfl⟩ := leave_eq_error he
            exact .brace hb hblocks
          | round => exact absurd rfl hs
          | square => exact absurd rfl hs
        | _ => exact absurd rfl hs

/-- At the end of the text a statement cannot end, or a block is still open. -/
theorem unfinished_of_finish {r : Reader} {f : Fault} (h : r.finish = .error f) :
    r.Unfinished f ∨ ∃ b ∈ r.blocks, f = ⟨.defect .unclosedBlock, b.brace⟩ := by
  have hlast : ∀ r₁ : Reader, r.Settles r₁ → r₁.finish = .error f →
      ∃ b ∈ r.blocks, f = ⟨.defect .unclosedBlock, b.brace⟩ := by
    intro r₁ hs hf
    unfold finish at hf
    rw [hs.draft_eq_none] at hf
    dsimp only [bind, Except.bind] at hf
    have hblocks : r₁.blocks = r.blocks := by cases hs <;> rfl
    cases hb : r₁.blocks with
    | nil => rw [hb] at hf; cases hf
    | cons b blocks =>
      rw [hb] at hf
      exact ⟨b, by rw [← hblocks, hb]; exact List.mem_cons_self, (Except.error.inj hf).symm⟩
  cases hd : r.draft with
  | none => exact .inr (hlast r (.none hd) h)
  | some d =>
    cases hc : r.cutOff d with
    | error e =>
      unfold finish at h
      simp only [hd, hc] at h
      cases h
      exact .inl (cutOff_eq_error hd hc)
    | ok r₁ =>
      have hs := cutOff_eq_ok hd hc
      refine .inr (hlast r₁ hs ?_)
      unfold finish at h ⊢
      rw [hs.draft_eq_none]
      simp only [hd, hc] at h
      exact h

/-- A reading that fails has come to a token that is refused. -/
theorem exists_refuses_of_run {ts : List Token} {r : Reader} {f : Fault}
    (h : r.run ts = .error f) :
    ∃ us t vs r', ts = us ++ t :: vs ∧ r.run us = .ok r' ∧ r'.Refuses t f := by
  induction ts generalizing r with
  | nil => cases h
  | cons t ts ih =>
    rw [run_cons] at h
    cases hs : r.step t with
    | error e =>
      rw [hs] at h
      cases h
      exact ⟨[], t, ts, r, rfl, rfl, refuses_of_step hs⟩
    | ok r₁ =>
      rw [hs] at h
      obtain ⟨us, u, vs, r', rfl, hr, hu⟩ := ih h
      exact ⟨t :: us, u, vs, r', rfl, by rw [run_cons, hs]; exact hr, hu⟩

end Reader

namespace Sheet

/-- A text that is no stylesheet has a token that is refused, or it ends too early. -/
theorem exists_fault_of_parse {s : Text} {e : ParseError} (h : parse s = .error e) :
    ∃ f, e = f.locate s ∧
      ((∃ us t vs r, Token.ofText s = us ++ t :: vs ∧ Reader.run {} us = .ok r ∧
          r.Refuses t f) ∨
        ∃ r, Reader.run {} (Token.ofText s) = .ok r ∧
          (r.Unfinished f ∨ ∃ b ∈ r.blocks, f = ⟨.defect .unclosedBlock, b.brace⟩)) := by
  unfold parse read at h
  cases hr : Reader.run {} (Token.ofText s) with
  | error f =>
    rw [hr] at h
    exact ⟨f, (Except.error.inj h).symm, .inl (Reader.exists_refuses_of_run hr)⟩
  | ok r =>
    rw [hr] at h
    have hlocated : r.finish.mapError (Fault.locate s) = .error e := h
    cases hf : r.finish with
    | ok sheet =>
      rw [hf] at hlocated
      cases hlocated
    | error f =>
      rw [hf] at hlocated
      exact ⟨f, (Except.error.inj hlocated).symm,
        .inr ⟨r, rfl, Reader.unfinished_of_finish hf⟩⟩

end Sheet

end HostSheet
