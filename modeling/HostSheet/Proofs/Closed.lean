import Mathlib
import HostSheet.Proofs.Names
import HostSheet.Proofs.Standing

set_option autoImplicit false

/-!
# Closed texts

A text is closed if a statement takes all of it in and can end behind it: outside brackets it
has no semicolon, brace or unclosed string, and behind it nothing is open (`Text.IsClosed`).
Whatever stood in the statement before, a closed text joins its content character by character
(`Text.IsClosed.exists_gains`).  So the head of an at-rule with closed parameters is read back in
front of its block (`AtHead.IsSound.stands`).
-/

namespace HostSheet

open Syntax

/-! ## Tokens that a statement takes -/

namespace Draft

/-- Whether a statement with these open brackets takes all the tokens. -/
def accepts : List Bracket → List Token → Bool
  | _, [] => true
  | stack, t :: ts => !(stack.isEmpty && isForeign t) && accepts (bracketsAfter stack t) ts

/-- A statement takes a token that is not foreign, and keeps its name and its first colon. -/
theorem exists_take? {d : Draft} {t : Token} (ht : d.brackets = [] → isForeign t = false)
    (hfresh : d.isFresh = true → ∀ name, t ≠ .atName name) :
    ∃ d', d.take? t = some d' ∧ d'.name = d.name ∧
      (d.colon ≠ none ∨ t ≠ .colon → d'.colon = d.colon) := by
  unfold take?
  by_cases hb : d.brackets = []
  case neg =>
    rw [if_pos hb]
    exact ⟨_, rfl, rfl, fun _ => rfl⟩
  have hforeign := ht hb
  rw [if_neg (not_not_intro hb)]
  cases t with
  | blank c => exact ⟨_, rfl, rfl, fun _ => rfl⟩
  | semicolon => cases hforeign
  | colon =>
    refine ⟨_, rfl, d.name_addColon, fun hcolon => ?_⟩
    unfold addColon
    cases hk : d.colon with
    | some k => exact hk
    | none => exact absurd hk (hcolon.resolve_right fun h => h rfl)
  | atName name =>
    dsimp only
    rw [if_neg fun hf => hfresh hf name rfl]
    exact ⟨_, rfl, rfl, fun _ => rfl⟩
  | quoted raw =>
    have hclosed : closesString raw = true := by simpa [isForeign] using hforeign
    dsimp only
    rw [if_pos hclosed]
    exact ⟨_, rfl, rfl, fun _ => rfl⟩
  | comment body isClosed =>
    cases isClosed with
    | true => exact ⟨_, rfl, rfl, fun _ => rfl⟩
    | false => cases hforeign
  | opener name b =>
    cases b with
    | curly => cases hforeign
    | round => exact ⟨_, rfl, rfl, fun _ => rfl⟩
    | square => exact ⟨_, rfl, rfl, fun _ => rfl⟩
  | closer b =>
    cases b with
    | curly => cases hforeign
    | round => exact ⟨_, rfl, rfl, fun _ => rfl⟩
    | square => exact ⟨_, rfl, rfl, fun _ => rfl⟩
  | other raw => exact ⟨_, rfl, rfl, fun _ => rfl⟩

/-- What must hold of the first token if nothing was read yet. -/
def Admits (d : Draft) (ts : List Token) : Prop :=
  d.isFresh = true → d.gap = [] ∧
    ∀ t, ts.head? = some t → t.startsStatement = true ∧ ∀ name, t ≠ .atName name

theorem admits_of_isFresh_eq_false {d : Draft} (h : d.isFresh = false) (ts : List Token) :
    d.Admits ts := by
  rw [Admits, h]
  nofun

/-- A statement that has taken a token admits all others. -/
theorem Admits.tail {d d' : Draft} {t : Token} {ts : List Token} (h : d.Admits (t :: ts))
    (ht : t.IsRead) (htake : d.take? t = some d') : d'.Admits ts :=
  admits_of_isFresh_eq_false ((takes_of_take? htake).isFresh ht.text_ne_nil fun hf =>
    ((h hf).2 t rfl).1) ts

theorem exists_feed {d : Draft} {ts : List Token} (hread : ∀ t ∈ ts, t.IsRead)
    (haccepts : accepts d.brackets ts = true) (hadmits : d.Admits ts) :
    ∃ d', d.feed ts = some d' ∧ d'.name = d.name ∧
      (d.colon ≠ none ∨ .colon ∉ ts → d'.colon = d.colon) := by
  induction ts generalizing d with
  | nil => exact ⟨d, rfl, rfl, fun _ => rfl⟩
  | cons t ts ih =>
    rw [accepts, Bool.and_eq_true, Bool.not_eq_true', Bool.and_eq_false_iff] at haccepts
    obtain ⟨hforeign, hrest⟩ := haccepts
    obtain ⟨d₁, htake, hname, hcolon⟩ := exists_take? (d := d) (t := t)
      (fun hb => hforeign.resolve_left (by rw [hb]; nofun)) fun hf => ((hadmits hf).2 t rfl).2
    rw [← brackets_of_take? htake] at hrest
    obtain ⟨d₂, hfeed, hname₂, hcolon₂⟩ := ih (fun u hu => hread u (List.mem_cons_of_mem _ hu))
      hrest (hadmits.tail (hread t List.mem_cons_self) htake)
    refine ⟨d₂, by rw [feed_cons, htake]; exact hfeed, hname₂.trans hname, fun h => ?_⟩
    rw [List.mem_cons, not_or] at h
    have hfirst := hcolon (h.imp_right fun h => Ne.symm h.1)
    rw [← hfirst] at h ⊢
    exact hcolon₂ (h.imp_right And.right)

/-- Behind a token that is no blank, no blanks are kept back. -/
theorem gap_of_feed {d d' : Draft} {us : List Token} {t : Token}
    (hread : ∀ u ∈ us, u.IsRead) (ht : ∀ c, t ≠ .blank c) (hadmits : d.Admits (us ++ [t]))
    (h : d.feed (us ++ [t]) = some d') : d'.gap = [] := by
  induction us generalizing d with
  | nil =>
    rw [List.nil_append, feed_cons] at h
    obtain ⟨d₁, htake, hrest⟩ := Option.bind_eq_some_iff.1 h
    obtain rfl := Option.some.inj hrest
    rcases (takes_of_take? htake).gap_eq fun hf => (hadmits hf).1 with ⟨c, rfl, _⟩ | hgap
    · exact absurd rfl (ht c)
    · exact hgap
  | cons u us ih =>
    rw [List.cons_append, feed_cons] at h
    obtain ⟨d₁, htake, hrest⟩ := Option.bind_eq_some_iff.1 h
    exact ih (fun v hv => hread v (List.mem_cons_of_mem _ hv))
      (hadmits.tail (hread u List.mem_cons_self) htake) hrest

end Draft

/-! ## Closed texts -/

/-- A text in which nothing ends a statement and behind which nothing is open.  Semicolons,
braces and colons may stand in its strings, brackets, comments and addresses. -/
structure Text.IsClosed (x : Text) : Prop where
  ne_nil : x ≠ []
  head : ∀ c, x.head? = some c → isBlank c = false
  last : ∀ c, x.getLast? = some c → isBlank c = false
  accepts : Draft.accepts [] (Token.ofText x) = true
  firm : Firm x

theorem Text.isClosed_iff {x : Text} :
    Text.IsClosed x ↔ x ≠ [] ∧ (x.head?.all (!isBlank ·)) = true ∧
      (x.getLast?.all (!isBlank ·)) = true ∧ Draft.accepts [] (Token.ofText x) = true ∧ Firm x := by
  simp only [Option.all_eq_true, Bool.not_eq_true']
  exact ⟨fun h => ⟨h.ne_nil, h.head, h.last, h.accepts, h.firm⟩,
    fun ⟨hne, hhead, hlast, haccepts, hfirm⟩ => ⟨hne, hhead, hlast, haccepts, hfirm⟩⟩

instance (x : Text) : Decidable (Text.IsClosed x) := decidable_of_iff _ Text.isClosed_iff.symm

/-- The statement `d'` is `d` with more content behind its gap. -/
structure Draft.Gains (d : Draft) (ts : List Token) (d' : Draft) : Prop where
  feed : d.feed ts = some d'
  name : d'.name = d.name
  colon : d.colon ≠ none ∨ .colon ∉ ts → d'.colon = d.colon
  brackets : d'.brackets = []
  gap : d'.gap = []
  content : d'.content = d.content ++ d.gap ++ Token.textOf ts

namespace Text.IsClosed

variable {x : Text}

theorem exists_last (h : Text.IsClosed x) :
    ∃ us t, Token.ofText x = us ++ [t] ∧ ∀ c, t ≠ .blank c := by
  obtain hnil | ⟨us, t, heq⟩ := List.eq_nil_or_concat (Token.ofText x)
  · have hx := Token.textOf_ofText x
    rw [hnil] at hx
    exact absurd hx.symm h.ne_nil
  · rw [List.concat_eq_append] at heq
    refine ⟨us, t, heq, ?_⟩
    rintro c rfl
    have hx := Token.textOf_ofText x
    have hc : (Token.blank c).IsRead := Token.isRead_of_mem_ofText (s := x) (by rw [heq]; simp)
    have hlast := h.last c (by rw [← hx, heq]; simp [Token.text])
    rw [hc.isBlank] at hlast
    cases hlast

/-- A statement takes a closed text. -/
theorem exists_gains (h : Text.IsClosed x) {d : Draft} (hb : d.brackets = [])
    (hadmits : d.Admits (Token.ofText x)) : ∃ d', d.Gains (Token.ofText x) d' := by
  have hread : ∀ t ∈ Token.ofText x, t.IsRead := fun t ht => Token.isRead_of_mem_ofText ht
  obtain ⟨d', hfeed, hname, hcolon⟩ := Draft.exists_feed hread (by rw [hb]; exact h.accepts) hadmits
  have hbrackets : d'.brackets = [] := by
    rw [Draft.brackets_of_feed hfeed, hb]
    exact h.firm.1
  obtain ⟨us, t, heq, ht⟩ := h.exists_last
  have hgap : d'.gap = [] := by
    rw [heq] at hfeed hadmits hread
    exact Draft.gap_of_feed (fun u hu => hread u (List.mem_append_left _ hu)) ht hadmits hfeed
  refine ⟨d', hfeed, hname, hcolon, hbrackets, hgap, ?_⟩
  have htext := Draft.text_feed hread (fun hf => ⟨(hadmits hf).1, fun t ht =>
    ((hadmits hf).2 t ht).1⟩) hfeed
  rw [Draft.text, Draft.text, hname, hgap, List.append_nil] at htext
  simp only [List.append_assoc] at htext ⊢
  exact List.append_cancel_left htext

end Text.IsClosed

/-- A plain name is closed. -/
theorem Text.isClosed_of_isPlain {name : Text} (h : Name.isPlain name = true) :
    Text.IsClosed name := by
  have htokens : ∀ w, Breaks w → Token.ofText (name ++ w) = .other name :: Token.ofText w := by
    intro w hw
    have hparted := Token.parted_name h hw
    rw [Token.Parted, Token.textOf_cons, Token.textOf_nil, List.append_nil] at hparted
    exact hparted
  have hname := htokens [] breaks_nil
  rw [List.append_nil, Token.ofText.eq_def []] at hname
  have hblank : ∀ c ∈ name, isBlank c = false := fun c hc =>
    isBlank_of_isInner (Name.isInner_of_isPlain h hc)
  refine ⟨?_, fun c hc => hblank c (List.mem_of_head? hc),
    fun c hc => hblank c (List.mem_of_getLast? hc), by rw [hname]; rfl, by rw [hname]; rfl,
    fun e he => ?_⟩
  · rintro rfl
    cases h
  · rw [hname]
    exact htokens _ (breaks_cons (isBreak_of_isStop he) [])

/-! ## Heads of blocks -/

/-- The head of a block is read back in front of the block. -/
theorem Standing.stands_blockHead {us : List Token} {d : Draft} {before gap : Text}
    {head : BlockHead} (hs : Standing us d) (hbefore : IsLoose before) (hgap : IsGap gap)
    (hh : (d.withGap gap).blockHead? before = some head) : head.Stands := by
  refine ⟨_, ⟨before, us, d, gap, hbefore, hs.statement, hs.brackets, hgap, hh, rfl⟩, fun v => ?_⟩
  have hbrace : Halts ('\x7b' :: v) := halts_cons rfl v
  refine Token.parted_append_iff.2 ⟨Token.parted_append_iff.2
    ⟨Token.parted_ofGap hbefore _, ?_⟩, Token.parted_ofGap hgap.isLoose _⟩
  rw [Token.textOf_ofGap]
  exact hs.parted _ (hbrace.gap_append hgap)

/-- The head of an at-rule: a plain name, and closed parameters behind a gap, if any. -/
structure AtHead.IsSound (head : AtHead) : Prop where
  name : Name.isPlain head.name = true
  params : head.params = [] ∧ head.afterName = [] ∨
    Text.IsClosed head.params ∧ head.afterName ≠ []

/-- An at-rule up to its block or semicolon is a statement. -/
theorem AtHead.IsSound.exists_standing {head : AtHead} (h : head.IsSound)
    (hgap : IsGap head.afterName) :
    ∃ us d, Standing us d ∧ d.name = some head.name ∧
      d.content = head.afterName ++ head.params := by
  let d₀ : Draft := { offset := 0, name := some head.name }
  have hfeed : Draft.feed { offset := 0 } [.atName head.name] = some d₀ := rfl
  rcases h.params with ⟨hparams, hnone⟩ | ⟨hclosed, hsome⟩
  · refine ⟨_, d₀, ⟨⟨⟨_, _, rfl, rfl⟩, hfeed, rfl⟩, rfl, fun w hw => ?_⟩, rfl, ?_⟩
    · exact Token.parted_atName h.name fun e he => isBreak_of_isStop (hw e he)
    · rw [hparams, hnone]
      rfl
  · obtain ⟨d, hd⟩ := hclosed.exists_gains (d := d₀.withGap head.afterName) rfl
      (Draft.admits_of_isFresh_eq_false rfl _)
    have hall : Draft.feed { offset := 0 }
        (.atName head.name :: (Token.ofGap head.afterName ++ Token.ofText head.params)) =
        some d := by
      rw [Draft.feed_cons]
      change d₀.feed _ = some d
      rw [Draft.feed_append, Draft.feed_ofGap rfl hgap]
      exact hd.feed
    refine ⟨_, d, ⟨⟨⟨_, _, rfl, rfl⟩, hall, hd.gap⟩, hd.brackets, fun w hw => ?_⟩, hd.name, ?_⟩
    · have hrest : Token.Parted (Token.ofGap head.afterName ++ Token.ofText head.params) w :=
        Token.parted_append_iff.2 ⟨Token.parted_ofGap hgap.isLoose _, hclosed.firm.parted hw⟩
      have hbreak : Breaks
          (Token.textOf (Token.ofGap head.afterName ++ Token.ofText head.params) ++ w) := by
        obtain ⟨c, g, heq⟩ := List.exists_cons_of_ne_nil hsome
        rw [Token.textOf_append, Token.textOf_ofGap, heq]
        exact breaks_blank (hgap c (heq ▸ List.mem_cons_self)) _
      exact Token.parted_append_iff.2 ⟨Token.parted_atName h.name hbreak, hrest⟩
    · rw [hd.content, Token.textOf_ofText]
      rfl

/-- The gap and the parameters are found again. -/
theorem AtHead.IsSound.atHead_eq {head : AtHead} (h : head.IsSound) (hgap : IsGap head.afterName)
    {d : Draft} (hd : d.content = head.afterName ++ head.params) :
    d.atHead head.before head.between head.name = head := by
  have hhead : ∀ c, head.params.head? = some c → isBlank c = false := by
    rcases h.params with ⟨hparams, _⟩ | ⟨hclosed, _⟩
    · rw [hparams]
      nofun
    · exact hclosed.head
  rw [Draft.atHead, hd, Text.dropStart, Text.takeWhile_run hgap hhead,
    Text.dropWhile_run hgap hhead]

/-- The head of an at-rule is read back in front of its block. -/
theorem AtHead.IsSound.stands {head : AtHead} (h : head.IsSound) (hbefore : IsLoose head.before)
    (hgap : IsGap head.afterName) (hbetween : IsGap head.between) :
    (BlockHead.atRule head).Stands := by
  obtain ⟨us, d, hs, hd, hcontent⟩ := h.exists_standing hgap
  refine hs.stands_blockHead hbefore hbetween ?_
  rw [Draft.blockHead?, show (d.withGap head.between).name = some head.name from hd]
  exact congrArg (fun head => some (BlockHead.atRule head)) (h.atHead_eq hgap hcontent)

end HostSheet
