import Mathlib
import HostSheet.Proofs.Seams

set_option autoImplicit false

/-!
# The blanks behind a colon

A declaration stays what it is when other blanks come behind its colon: it has the same
property and the same value (`Statement.respace`).  The two statements take the same tokens
from there on, each on top of its own characters (`Draft.onto`).
-/

namespace HostSheet

open Syntax

namespace Syntax.Token

/-- Only a blank starts with a blank. -/
theorem IsRead.eq_blank {t : Token} {c : Char} {u : Text} (h : t.IsRead) (htext : t.text = c :: u)
    (hc : Syntax.isBlank c = true) : t = .blank c := by
  obtain ⟨a, r, rfl⟩ := h
  obtain ⟨u', hu', _⟩ := splits_read a r
  rw [htext] at hu'
  obtain rfl := (List.cons.inj hu').1
  unfold read
  rw [if_pos hc]

/-- The blanks in front of tokens are a gap. -/
theorem exists_ofGap_append (us : List Token) (h : ∀ t ∈ us, t.IsRead) :
    ∃ g vs, us = ofGap g ++ vs ∧ IsGap g ∧ ∀ c, vs.head? ≠ some (.blank c) := by
  induction us with
  | nil => exact ⟨[], [], rfl, isGap_nil, nofun⟩
  | cons t us ih =>
    obtain ⟨g, vs, rfl, hg, hvs⟩ := ih fun u hu => h u (List.mem_cons_of_mem _ hu)
    by_cases ht : ∃ c, t = .blank c
    · obtain ⟨c, rfl⟩ := ht
      have hc : Syntax.isBlank c = true := (h _ List.mem_cons_self).isBlank
      have hne : c ≠ ';' := by
        rintro rfl
        cases hc
      refine ⟨c :: g, vs, ?_, ?_, hvs⟩
      · simp [ofGap, hne]
      · intro a ha
        rcases List.mem_cons.1 ha with rfl | ha
        · exact hc
        · exact hg a ha
    · refine ⟨[], t :: (ofGap g ++ vs), rfl, isGap_nil, ?_⟩
      intro c hc
      exact ht ⟨c, Option.some.inj hc⟩

theorem eq_nil_of_textOf_eq_nil {us : List Token} (hread : ∀ t ∈ us, t.IsRead)
    (h : textOf us = []) : us = [] := by
  cases us with
  | nil => rfl
  | cons t us =>
    rw [textOf_cons] at h
    exact absurd (List.append_eq_nil_iff.1 h).1 (hread t List.mem_cons_self).text_ne_nil

/-- A text starts with a blank only if its first token is one. -/
theorem isBlank_head?_textOf {us : List Token} (hread : ∀ t ∈ us, t.IsRead)
    (h : ∀ c, us.head? ≠ some (.blank c)) {a : Char} (ha : (textOf us).head? = some a) :
    Syntax.isBlank a = false := by
  cases us with
  | nil => cases ha
  | cons t us =>
    have ht := hread t List.mem_cons_self
    obtain ⟨b, u, htext⟩ := List.exists_cons_of_ne_nil ht.text_ne_nil
    rw [textOf_cons, htext] at ha
    obtain rfl := Option.some.inj ha
    cases hb : Syntax.isBlank b with
    | false => rfl
    | true => exact absurd (congrArg some (ht.eq_blank htext hb)) (h b)

end Syntax.Token

namespace Draft

/-! ## Statements on top of other characters -/

/-- The statement with more content in front of what it has. -/
def onto (base : Text) (d : Draft) : Draft := { d with reversed := d.reversed ++ base }

/-- The statement without its content. -/
def bare (d : Draft) : Draft := { d with reversed := [], gap := [] }

theorem content_onto (base : Text) (d : Draft) :
    (d.onto base).content = base.reverse ++ d.content := by
  simp [onto, content]

theorem isFresh_onto {base : Text} (hbase : base ≠ []) (d : Draft) :
    (d.onto base).isFresh = false := by
  simp [isFresh, onto, hbase]

/-- A token that ends a statement or makes it faulty, outside brackets. -/
def isForeign : Token → Bool
  | .semicolon => true
  | .opener _ .curly => true
  | .closer .curly => true
  | .comment _ false => true
  | .quoted raw => !closesString raw
  | _ => false

theorem take?_blank {d : Draft} (hb : d.brackets = []) (c : Char) :
    d.take? (.blank c) = some (d.withGap (d.gap ++ [c])) := by
  unfold take?
  rw [if_neg (not_not_intro hb)]
  rfl

/-- Behind a colon a statement adds every token that it takes in the same way, but for the
blanks outside brackets. -/
theorem take?_of_colon {d : Draft} {k : Nat} (hk : d.colon = some k) (hfresh : d.isFresh = false)
    {t : Token} (ht : d.brackets = [] → ∀ c, t ≠ .blank c) :
    d.take? t = if d.brackets = [] ∧ isForeign t = true then none else
      some { d.add t with brackets := bracketsAfter d.brackets t } := by
  unfold take?
  by_cases hb : d.brackets = []
  case neg => rw [if_pos hb, if_neg fun h => hb h.1]
  rw [if_neg (not_not_intro hb)]
  cases t with
  | blank c => exact absurd rfl (ht hb c)
  | colon =>
    dsimp only
    rw [addColon, hk, if_neg (by simp [isForeign])]
    rfl
  | atName name =>
    dsimp only
    rw [hfresh, if_neg Bool.false_ne_true, if_neg (by simp [isForeign])]
    rfl
  | quoted raw =>
    dsimp only
    by_cases hc : closesString raw = true
    · rw [if_pos hc, if_neg (by simp [isForeign, hc])]
      rfl
    · rw [if_neg hc, if_pos ⟨hb, by simp [isForeign, hc]⟩]
  | comment body isClosed => cases isClosed <;> simp [isForeign, hb]
  | opener name b => cases b <;> simp [isForeign, hb]
  | closer b => cases b <;> simp [isForeign, hb]
  | semicolon => simp [isForeign, hb]
  | other raw => simp [isForeign, hb]

/-- Behind a colon a statement takes the same tokens, whatever its characters are. -/
theorem take?_onto {base base' : Text} (hbase : base ≠ []) (hbase' : base' ≠ []) {d d₁ : Draft}
    {k : Nat} (hk : d.colon = some k) {t : Token} (h : (d.onto base).take? t = some d₁) :
    ∃ d₂ : Draft, d₂.colon = some k ∧ d₁ = d₂.onto base ∧
      (d.onto base').take? t = some (d₂.onto base') := by
  by_cases hblank : d.brackets = [] ∧ ∃ c, t = .blank c
  · obtain ⟨hb, c, rfl⟩ := hblank
    rw [take?_blank (show (d.onto base).brackets = [] from hb)] at h
    rw [take?_blank (show (d.onto base').brackets = [] from hb)]
    exact ⟨d.withGap (d.gap ++ [c]), hk, (Option.some.inj h).symm, rfl⟩
  · have ht : d.brackets = [] → ∀ c, t ≠ .blank c := fun hb c hc => hblank ⟨hb, c, hc⟩
    have hadd : ∀ b : Text, { (d.onto b).add t with brackets := bracketsAfter d.brackets t } =
        { d.add t with brackets := bracketsAfter d.brackets t }.onto b := by
      intro b
      simp [onto, add]
    rw [@take?_of_colon (d.onto base) k hk (isFresh_onto hbase d) t ht] at h
    split at h
    · cases h
    · rename_i htaken
      refine ⟨{ d.add t with brackets := bracketsAfter d.brackets t }, hk, ?_, ?_⟩
      · rw [← hadd]
        exact (Option.some.inj h).symm
      · rw [@take?_of_colon (d.onto base') k hk (isFresh_onto hbase' d) t ht, ← hadd]
        exact if_neg htaken

theorem feed_onto {base base' : Text} (hbase : base ≠ []) (hbase' : base' ≠ []) {d d₁ : Draft}
    {k : Nat} (hk : d.colon = some k) {us : List Token} (h : (d.onto base).feed us = some d₁) :
    ∃ d₂ : Draft, d₂.colon = some k ∧ d₁ = d₂.onto base ∧
      (d.onto base').feed us = some (d₂.onto base') := by
  induction us generalizing d with
  | nil => exact ⟨d, hk, (Option.some.inj h).symm, rfl⟩
  | cons u us ih =>
    rw [feed_cons] at h
    obtain ⟨d', htake, hrest⟩ := Option.bind_eq_some_iff.1 h
    obtain ⟨d₂, hk₂, rfl, htake'⟩ := take?_onto hbase hbase' hk htake
    obtain ⟨d₃, hk₃, rfl, hrest'⟩ := ih hk₂ hrest
    refine ⟨d₃, hk₃, rfl, ?_⟩
    rw [feed_cons, htake']
    exact hrest'

/-- Blanks that were kept back are content as soon as a token comes that is no blank. -/
theorem take?_withGap {d : Draft} {k : Nat} (hk : d.colon = some k) (hr : d.reversed ≠ [])
    {t : Token} (ht : ∀ c, t ≠ .blank c) (g : Text) :
    (d.withGap g).take? t = (d.bare.onto (g.reverse ++ d.reversed)).take? t := by
  have hfresh : (d.withGap g).isFresh = false := by simp [isFresh, withGap, hr]
  have hfresh' : (d.bare.onto (g.reverse ++ d.reversed)).isFresh = false :=
    isFresh_onto (by simp [hr]) _
  rw [@take?_of_colon (d.withGap g) k hk hfresh t fun _ => ht,
    @take?_of_colon (d.bare.onto (g.reverse ++ d.reversed)) k hk hfresh' t fun _ => ht]
  rfl

/-! ## The first colon -/

/-- A statement with a colon is split in two by the first one outside brackets. -/
theorem exists_colon {d d' : Draft} {us : List Token} {k : Nat} (h : d.feed us = some d')
    (hnone : d.colon = none) (hk : d'.colon = some k) :
    ∃ us₁ us₂ d₁, us = us₁ ++ .colon :: us₂ ∧ d.feed us₁ = some d₁ ∧ d₁.brackets = [] ∧
      d₁.colon = none ∧ d₁.addColon.feed us₂ = some d' := by
  induction us generalizing d with
  | nil =>
    obtain rfl := Option.some.inj h
    rw [hnone] at hk
    cases hk
  | cons u us ih =>
    rw [feed_cons] at h
    obtain ⟨d₁, htake, hrest⟩ := Option.bind_eq_some_iff.1 h
    have hnext : d₁.colon = none → ∃ us₁ us₂ d₂, u :: us = us₁ ++ .colon :: us₂ ∧
        d.feed us₁ = some d₂ ∧ d₂.brackets = [] ∧ d₂.colon = none ∧
          d₂.addColon.feed us₂ = some d' := by
      intro hnone₁
      obtain ⟨us₁, us₂, d₂, rfl, hfeed, hb, hnone₂, hrest₂⟩ := ih hrest hnone₁
      refine ⟨u :: us₁, us₂, d₂, rfl, ?_, hb, hnone₂, hrest₂⟩
      rw [feed_cons, htake]
      exact hfeed
    cases takes_of_take? htake with
    | blank c hb => exact hnext hnone
    | name name hb hf => exact hnext hnone
    | colon hb => exact ⟨[], us, d, rfl, rfl, hb, hnone, hrest⟩
    | add t brackets => exact hnext hnone

/-! ## The characters of a statement -/

theorem Takes.name_eq_none_of_right {d d' : Draft} {t : Token} (h : d.Takes t d')
    (hname : d'.name = none) : d.name = none := by
  cases h with
  | blank c hb => exact hname
  | name name hb hf => cases hname
  | colon hb =>
    unfold addColon at hname
    split at hname
    · exact hname
    · exact hname
  | add t brackets => exact hname

theorem name_eq_none_of_feed {d d' : Draft} {us : List Token} (h : d.feed us = some d')
    (hname : d'.name = none) : d.name = none := by
  induction us generalizing d with
  | nil => rwa [Option.some.inj h]
  | cons u us ih =>
    rw [feed_cons] at h
    obtain ⟨d₁, htake, hrest⟩ := Option.bind_eq_some_iff.1 h
    exact (takes_of_take? htake).name_eq_none_of_right (ih hrest)

/-- A statement grows by the characters of its tokens. -/
theorem text_feed {d d' : Draft} {us : List Token} (hread : ∀ t ∈ us, t.IsRead)
    (hfresh : d.isFresh = true → d.gap = [] ∧ ∀ t, us.head? = some t → t.startsStatement = true)
    (h : d.feed us = some d') : d'.text = d.text ++ Token.textOf us := by
  induction us generalizing d with
  | nil =>
    obtain rfl := Option.some.inj h
    simp
  | cons u us ih =>
    rw [feed_cons] at h
    obtain ⟨d₁, htake, hrest⟩ := Option.bind_eq_some_iff.1 h
    have htakes := takes_of_take? htake
    have hstarted : d₁.isFresh = false :=
      htakes.isFresh (hread u List.mem_cons_self).text_ne_nil fun hf => (hfresh hf).2 u rfl
    rw [ih (fun t ht => hread t (List.mem_cons_of_mem _ ht)) (by rw [hstarted]; nofun) hrest,
      htakes.text fun hf => (hfresh hf).1, Token.textOf_cons, List.append_assoc]

theorem text_of_name_eq_none {d : Draft} (h : d.name = none) : d.text = d.content ++ d.gap := by
  rw [text, h]
  rfl

/-- The declaration of a statement whose characters around the colon are known. -/
theorem declaration_eq {d : Draft} {a w v : Text} (hcontent : d.content = a ++ ':' :: (w ++ v))
    (hw : IsGap w) (hv : ∀ c, v.head? = some c → isBlank c = false) (before after : Text) :
    d.declaration before after a.length =
      ⟨before, Text.dropEnd isBlank a, Text.takeEnd isBlank a ++ ':' :: w, v, after⟩ := by
  have hdrop : d.content.drop (a.length + 1) = w ++ v := by
    rw [hcontent, List.drop_append, List.drop_eq_nil_of_le (Nat.le_succ _)]
    simp
  unfold declaration
  rw [hdrop, hcontent, List.take_left, Text.dropStart, Text.takeWhile_run hw hv,
    Text.dropWhile_run hw hv]

/-! ## Brackets -/

theorem name_addColon (d : Draft) : d.addColon.name = d.name := by
  unfold addColon
  split <;> rfl

theorem brackets_addColon (d : Draft) : d.addColon.brackets = d.brackets := by
  unfold addColon
  split <;> rfl

theorem brackets_of_take? {d d' : Draft} {t : Token} (h : d.take? t = some d') :
    d'.brackets = bracketsAfter d.brackets t := by
  unfold take? at h
  by_cases hb : d.brackets = []
  case neg =>
    rw [if_pos hb] at h
    cases h
    rfl
  rw [if_neg (not_not_intro hb)] at h
  cases t with
  | blank c => cases h; rfl
  | semicolon => cases h
  | colon => cases h; exact d.brackets_addColon
  | atName name =>
    cases h
    split <;> rfl
  | quoted raw =>
    dsimp only at h
    split at h
    · cases h; rfl
    · cases h
  | comment body isClosed =>
    cases isClosed with
    | true => cases h; rw [hb]
    | false => cases h
  | opener name b =>
    cases b with
    | curly => cases h
    | round => cases h; rw [hb]
    | square => cases h; rw [hb]
  | closer b =>
    cases b with
    | curly => cases h
    | round => cases h; rw [hb]
    | square => cases h; rw [hb]
  | other raw => cases h; rw [hb]

/-- The open brackets of a statement come from its tokens alone. -/
theorem brackets_of_feed {d d' : Draft} {us : List Token} (h : d.feed us = some d') :
    d'.brackets = us.foldl bracketsAfter d.brackets := by
  induction us generalizing d with
  | nil =>
    cases h
    rfl
  | cons u us ih =>
    rw [feed_cons] at h
    obtain ⟨d₁, htake, hrest⟩ := Option.bind_eq_some_iff.1 h
    rw [ih hrest, brackets_of_take? htake, List.foldl_cons]

/-- Blanks open and close no brackets. -/
theorem foldl_bracketsAfter_of_isGap {us : List Token} (h : IsGap (Token.textOf us))
    (stack : List Bracket) : us.foldl bracketsAfter stack = stack := by
  induction us with
  | nil => rfl
  | cons u us ih =>
    rw [Token.textOf_cons] at h
    have hu : ∀ c ∈ u.text, isBlank c = true := fun c hc => h c (List.mem_append_left _ hc)
    have hsame : bracketsAfter stack u = stack := by
      cases u with
      | opener name b =>
        have := hu b.opening (by simp [Token.text])
        cases b <;> cases this
      | closer b =>
        have := hu b.closing (by simp [Token.text])
        cases b <;> cases this
      | _ => rfl
    rw [List.foldl_cons, hsame]
    exact ih fun c hc => h c (List.mem_append_right _ hc)

end Draft

/-- Tokens that leave no bracket open are shut. -/
theorem Syntax.Token.shut_of_foldl {us : List Token}
    (h : us.foldl Draft.bracketsAfter [] = []) : Token.Shut us := by
  rintro us₁ name us₂ rfl hgap
  rw [List.foldl_append, List.foldl_cons, Draft.foldl_bracketsAfter_of_isGap hgap] at h
  cases h

namespace Statement

/-- The characters of a statement. -/
theorem text {us : List Token} {d : Draft} (hs : Statement us d) (hread : ∀ t ∈ us, t.IsRead) :
    d.text = Token.textOf us := by
  obtain ⟨t, ts, rfl, hstarts⟩ := hs.starts
  have htext := Draft.text_feed hread (fun _ => ⟨rfl, ?_⟩) hs.feed
  · exact htext
  · intro u hu
    rwa [← Option.some.inj hu]

/-- A statement whose brackets are closed leaves no bracket open at its end. -/
theorem shut {us : List Token} {d : Draft} (hs : Statement us d) (hb : d.brackets = []) :
    Token.Shut us :=
  Token.shut_of_foldl ((Draft.brackets_of_feed hs.feed).symm.trans hb)

/-- The statement behind its first colon, with the tokens in front of the colon. -/
structure AtColon (us : List Token) (d : Draft) : Prop where
  reversed : d.reversed = ':' :: (Token.textOf us).reverse
  gap : d.gap = []
  brackets : d.brackets = []
  colon : d.colon = some (Token.textOf us).length
  statement : ∀ vs d', d.feed vs = some d' → d'.gap = [] → Statement (us ++ .colon :: vs) d'

/-- A statement that takes its first colon. -/
theorem atColon_addColon {us : List Token} {d : Draft}
    (hfeed : Draft.feed { offset := 0 } us = some d)
    (hstarts : ∀ vs, ∃ t ts, us ++ .colon :: vs = t :: ts ∧ t.startsStatement = true)
    (hb : d.brackets = []) (hnone : d.colon = none) (htext : d.content ++ d.gap = Token.textOf us) :
    AtColon us d.addColon := by
  have hadd : d.addColon = { d.add .colon with
      colon := some (d.reversed.length + d.gap.length) } := by
    unfold Draft.addColon
    rw [hnone]
  refine ⟨?reversed, by rw [hadd]; rfl, by rw [hadd]; exact hb, ?colon,
    fun vs d' hrest hgap => ⟨hstarts vs, ?feed, hgap⟩⟩
  case reversed =>
    rw [hadd, ← htext]
    simp [Draft.add, Draft.content, Token.text]
  case colon =>
    rw [hadd, ← htext]
    simp [Draft.content]
  case feed =>
    have htake : d.take? .colon = some d.addColon := by
      unfold Draft.take?
      rw [if_neg (not_not_intro hb)]
    rw [Draft.feed_append, hfeed, Option.bind_some, Draft.feed_cons, htake]
    exact hrest

theorem exists_atColon {us : List Token} {d : Draft} {k : Nat} (hs : Statement us d)
    (hread : ∀ t ∈ us, t.IsRead) (hname : d.name = none) (hk : d.colon = some k) :
    ∃ us₁ us₂ d₂, us = us₁ ++ .colon :: us₂ ∧ AtColon us₁ d₂ ∧ d₂.feed us₂ = some d := by
  obtain ⟨us₁, us₂, d₁, rfl, hfeed₁, hb₁, hnone₁, hrest⟩ := Draft.exists_colon hs.feed rfl hk
  have hstarts : ∀ vs, ∃ t ts, us₁ ++ .colon :: vs = t :: ts ∧ t.startsStatement = true := by
    intro vs
    obtain ⟨t, ts, heq, ht⟩ := hs.starts
    cases us₁ with
    | nil => exact ⟨.colon, vs, rfl, rfl⟩
    | cons u us₁ => exact ⟨u, us₁ ++ .colon :: vs, rfl, by rwa [(List.cons.inj heq).1]⟩
  have htext : d₁.content ++ d₁.gap = Token.textOf us₁ := by
    have hname₁ : d₁.addColon.name = none := Draft.name_eq_none_of_feed hrest hname
    rw [← Draft.text_of_name_eq_none ((Draft.Takes.colon hb₁).name_eq_none_of_right hname₁)]
    refine Draft.text_feed (fun t ht => hread t (List.mem_append_left _ ht))
      (fun _ => ⟨rfl, fun t ht => ?_⟩) hfeed₁
    obtain ⟨t', ts, heq, hstart⟩ := hstarts us₂
    cases us₁ with
    | nil => cases ht
    | cons u us₁ =>
      obtain rfl := Option.some.inj ht
      rwa [(List.cons.inj heq).1]
  exact ⟨us₁, us₂, d₁.addColon, rfl, atColon_addColon hfeed₁ hstarts hb₁ hnone₁ htext, hrest⟩

namespace AtColon

variable {us : List Token} {d : Draft}

theorem feed_ofGap_append (h : AtColon us d) {g : Text} (hg : IsGap g) (vs : List Token) :
    d.feed (Token.ofGap g ++ vs) = (d.withGap g).feed vs := by
  rw [Draft.feed_append, Draft.feed_ofGap h.brackets hg, h.gap]
  rfl

/-- The value's tokens come on top of all characters up to the blanks. -/
theorem feed_value (h : AtColon us d) {g : Text} (hg : IsGap g) {t : Token}
    (ht : ∀ c, t ≠ .blank c) (vs : List Token) :
    d.feed (Token.ofGap g ++ t :: vs) =
      (d.bare.onto (g.reverse ++ ':' :: (Token.textOf us).reverse)).feed (t :: vs) := by
  have hne : d.reversed ≠ [] := by
    rw [h.reversed]
    exact List.cons_ne_nil _ _
  rw [h.feed_ofGap_append hg, Draft.feed_cons, Draft.feed_cons,
    Draft.take?_withGap h.colon hne ht, h.reversed]

end AtColon

/-- The tokens of a declaration up to and with its colon, the blanks behind the colon, and
the tokens of its value. -/
structure Halves (us₁ : List Token) (w : Text) (us₂ : List Token) (d : Draft) (head : Text) :
    Prop where
  statement : Statement (us₁ ++ .colon :: (Token.ofGap w ++ us₂)) d
  brackets : d.brackets = []
  name : d.name = none
  colon : d.colon = some head.length
  content : d.content = head ++ ':' :: (w ++ Token.textOf us₂)

/-- A declaration with other blanks behind its colon. -/
theorem exists_halves {us : List Token} {d : Draft} {k : Nat} (hs : Statement us d)
    (hread : ∀ t ∈ us, t.IsRead) (hb : d.brackets = []) (hname : d.name = none)
    (hk : d.colon = some k) :
    ∃ us₁ w us₂ head, us = us₁ ++ .colon :: (Token.ofGap w ++ us₂) ∧ IsGap w ∧
      (us₂ = [] → w = []) ∧ (∀ c, us₂.head? ≠ some (.blank c)) ∧
      Token.textOf us₁ = head ∧
      ∀ w', IsGap w' → (us₂ = [] → w' = []) → ∃ d', Halves us₁ w' us₂ d' head := by
  obtain ⟨us₁, us₂, d₂, rfl, hcolon, hrest⟩ := hs.exists_atColon hread hname hk
  have hread₂ : ∀ t ∈ us₂, t.IsRead := fun t ht =>
    hread t (List.mem_append_right _ (List.mem_cons_of_mem _ ht))
  obtain ⟨w, us₃, rfl, hw, hhead⟩ := Token.exists_ofGap_append us₂ hread₂
  cases us₃ with
  | nil =>
    have hname₂ : d₂.name = none := Draft.name_eq_none_of_feed hrest hname
    rw [hcolon.feed_ofGap_append hw] at hrest
    have hnil : w = [] := by
      rw [← hs.gap, ← Option.some.inj hrest]
      rfl
    refine ⟨us₁, w, [], _, rfl, hw, fun _ => hnil, hhead, rfl, fun w' _ hnil' => ?_⟩
    obtain rfl := hnil' rfl
    refine ⟨d₂, hcolon.statement _ d₂ rfl hcolon.gap, hcolon.brackets, hname₂, hcolon.colon, ?_⟩
    rw [Draft.content, hcolon.reversed]
    simp
  | cons t us₃ =>
    have ht : ∀ c, t ≠ .blank c := fun c hc => hhead c (by rw [hc]; rfl)
    have hbase : ∀ g : Text, g.reverse ++ ':' :: (Token.textOf us₁).reverse ≠ [] := by simp
    rw [hcolon.feed_value hw ht] at hrest
    refine ⟨us₁, w, t :: us₃, _, rfl, hw, fun h => (by cases h), hhead, rfl, fun w' hw' _ => ?_⟩
    obtain ⟨d₃, hcolon₃, rfl, hrest'⟩ :=
      Draft.feed_onto (d := d₂.bare) (hbase w) (hbase w') hcolon.colon hrest
    have hgap : d₃.gap = [] := hs.gap
    have hname₃ : (d₃.onto (w'.reverse ++ ':' :: (Token.textOf us₁).reverse)).name = none := hname
    refine ⟨d₃.onto (w'.reverse ++ ':' :: (Token.textOf us₁).reverse),
      hcolon.statement _ _ ?feed hgap, hb, hname₃, hcolon₃, ?content⟩
    case feed => rw [hcolon.feed_value hw' ht, hrest']
    case content =>
      have htext := Draft.text_feed (fun u hu => hread₂ u (List.mem_append_right _ hu))
        (fun h => (by rw [Draft.isFresh_onto (hbase w')] at h; cases h)) hrest'
      rw [Draft.text_of_name_eq_none hname₃,
        Draft.text_of_name_eq_none (Draft.name_eq_none_of_feed hrest' hname₃),
        Draft.content_onto _ d₂.bare] at htext
      change _ ++ d₃.gap = _ at htext
      rw [hgap, List.append_nil] at htext
      rw [htext]
      simp [Draft.onto, Draft.bare, Draft.content]

/-- The declaration that two halves are. -/
theorem Halves.node {us₁ us₂ : List Token} {w head : Text} {d : Draft}
    (h : Halves us₁ w us₂ d head) (hw : IsGap w)
    (hvalue : ∀ c, (Token.textOf us₂).head? = some c → isBlank c = false)
    (before after : Text) :
    d.node before after = .ok (.declaration ⟨before, Text.dropEnd isBlank head,
      Text.takeEnd isBlank head ++ ':' :: w, Token.textOf us₂, after⟩) := by
  rw [← Draft.declaration_eq h.content hw hvalue]
  unfold Draft.node
  rw [h.name, h.colon]

/-- Nothing is open behind a colon. -/
theorem shut_append_colon (us : List Token) : Token.Shut (us ++ [.colon]) := by
  intro us₁ name us₂ h hgap
  cases us₂ using List.reverseRecOn with
  | nil =>
    have hlast := List.append_inj_right' h rfl
    cases hlast
  | append_singleton us₂ t =>
    rw [← List.cons_append, ← List.append_assoc] at h
    have hlast := List.append_inj_right' h rfl
    obtain rfl := (List.cons.inj hlast).1
    have hcolon := hgap ':' (by simp [Token.text])
    cases hcolon

theorem parted_respace {us₁ us₂ : List Token} {w w' rest : Text}
    (h : Token.Parted (us₁ ++ .colon :: (Token.ofGap w ++ us₂)) rest) (hw : IsGap w)
    (hw' : IsGap w') (hhead : w'.head? = w.head?) :
    Token.Parted (us₁ ++ .colon :: (Token.ofGap w' ++ us₂)) rest := by
  cases w with
  | nil =>
    cases w' with
    | nil => exact h
    | cons c w' => cases hhead
  | cons c w =>
    cases w' with
    | nil => cases hhead
    | cons c' w' =>
      obtain rfl := Option.some.inj hhead
      have hc := isSeam_of_isBlank (hw c' List.mem_cons_self)
      have hsplit : ∀ g, us₁ ++ .colon :: (Token.ofGap g ++ us₂) =
          (us₁ ++ [.colon]) ++ (Token.ofGap g ++ us₂) := by simp
      rw [hsplit, Token.parted_append_iff, Token.textOf_append, Token.textOf_ofGap] at h ⊢
      obtain ⟨hfront, hback⟩ := h
      refine ⟨hfront.replace hc (shut_append_colon us₁) _, ?_⟩
      rw [Token.parted_append_iff] at hback ⊢
      exact ⟨Token.parted_ofGap hw'.isLoose _, hback.2⟩

/-! ## Other blanks -/

/-- The blanks behind the colon of a declaration can be replaced by others, as long as the
first stays what it is. -/
theorem respace {us : List Token} {d : Draft} {before after : Text} {decl : Declaration}
    (hs : Statement us d) (hread : ∀ t ∈ us, t.IsRead) (hb : d.brackets = [])
    (hn : d.node before after = .ok (.declaration decl)) :
    ∃ u w, decl.between = u ++ ':' :: w ∧ IsGap u ∧ IsGap w ∧ (decl.value = [] → w = []) ∧
      (∀ c, decl.value.head? = some c → isBlank c = false) ∧
      Token.textOf us = decl.prop ++ u ++ ':' :: w ++ decl.value ∧
      ∀ w', IsGap w' → w'.head? = w.head? → ∃ us' d' between,
        Statement us' d' ∧ d'.brackets = [] ∧
          (∀ before' after', d'.node before' after' =
            .ok (.declaration ⟨before', decl.prop, between, decl.value, after'⟩)) ∧
          Token.textOf us' = decl.prop ++ u ++ ':' :: w' ++ decl.value ∧
          ∀ rest, Token.Parted us rest → Token.Parted us' rest := by
  obtain ⟨hname, k, hk⟩ : d.name = none ∧ ∃ k, d.colon = some k := by
    rcases Draft.node_cases hn with ⟨name, _, hstatement⟩ | ⟨k, hname, hk, _⟩
    · cases hstatement
    · exact ⟨hname, k, hk⟩
  obtain ⟨us₁, w, us₂, head, rfl, hw, hnil, hblank, rfl, hall⟩ :=
    exists_halves hs hread hb hname hk
  have hread₂ : ∀ t ∈ us₂, t.IsRead := fun t ht => hread t (by simp [ht])
  have hvalue : ∀ c, (Token.textOf us₂).head? = some c → isBlank c = false :=
    fun c => Token.isBlank_head?_textOf hread₂ hblank
  obtain ⟨d₀, hd₀⟩ := hall w hw hnil
  obtain rfl : d₀ = d := Option.some.inj (hd₀.statement.feed.symm.trans hs.feed)
  rw [hd₀.node hw hvalue] at hn
  obtain rfl := Node.declaration.inj (Except.ok.inj hn)
  have htext : ∀ g, Token.textOf (us₁ ++ .colon :: (Token.ofGap g ++ us₂)) =
      Text.dropEnd isBlank (Token.textOf us₁) ++ Text.takeEnd isBlank (Token.textOf us₁) ++
        ':' :: g ++ Token.textOf us₂ := by
    intro g
    rw [Text.dropEnd_append_takeEnd]
    simp [Token.text]
  refine ⟨Text.takeEnd isBlank (Token.textOf us₁), w, rfl, isGap_takeEnd _, hw,
    fun h => hnil (Token.eq_nil_of_textOf_eq_nil hread₂ h), hvalue, htext w, ?_⟩
  intro w' hw' hhead
  obtain ⟨d', hd'⟩ := hall w' hw' fun h => by
    rw [hnil h] at hhead
    cases w' with
    | nil => rfl
    | cons c w' => cases hhead
  exact ⟨_, d', _, hd'.statement, hd'.brackets, hd'.node hw' hvalue, htext w',
    fun rest hrest => parted_respace hrest hw hw' hhead⟩

end Statement

end HostSheet
