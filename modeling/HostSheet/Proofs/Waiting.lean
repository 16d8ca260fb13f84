import Mathlib
import HostSheet.Proofs.Outline
import HostSheet.Proofs.Respacing
import HostSheet.Proofs.Unwrapping

set_option autoImplicit false

/-!
# Declarations that wait for their end

A declaration that was the last of a host block and had no semicolon there stands open once
the block is gone.  It is read as it was if the next character that is no blank is a
semicolon or closes the block around it, or if there is none (`Pending.reads_gap`,
`Pending.reads_end`).  Any other character makes the declaration longer, or makes
something else of it, and then it is lost (`Waits.misreads`).
-/

namespace HostSheet

open Text Syntax

/-! ## Statements in front of a seam -/

/-- A text in which a node starts at once, or nothing but a node can. -/
def Begins (w : Text) : Prop :=
  ∃ c v, w = c :: v ∧ isBlank c = false ∧ c ≠ ';' ∧ c ≠ '\x7d'

theorem Begins.append {w : Text} (h : Begins w) (v : Text) : Begins (w ++ v) := by
  obtain ⟨c, w, rfl, hc⟩ := h
  exact ⟨c, w ++ v, rfl, hc⟩

namespace Statement

/-- A statement starts with a character that is no part of a gap and ends nothing. -/
theorem begins {us : List Token} {d : Draft} {w : Text} (hs : Statement us d)
    (h : Token.Parted us w) (v : Text) : Begins (Token.textOf us ++ v) := by
  obtain ⟨t, ts, rfl, hstarts⟩ := hs.starts
  obtain ⟨⟨c, u, htext, hread⟩, _⟩ := Token.parted_cons_iff.1 h
  have ht : (Token.read c (u ++ (Token.textOf ts ++ w))).1 = t := congrArg Prod.fst hread
  rw [Token.textOf_cons, htext]
  refine ⟨c, u ++ Token.textOf ts ++ v, rfl, ?_, ?_, ?_⟩
  · cases hc : isBlank c with
    | false => rfl
    | true =>
      have hblank : ∀ r, Token.read c r = (.blank c, r) := by
        intro r
        unfold Token.read
        rw [if_pos hc]
      rw [hblank] at ht
      rw [← ht] at hstarts
      cases hstarts
  · rintro rfl
    rw [← ht] at hstarts
    cases hstarts
  · rintro rfl
    rw [← ht] at hstarts
    cases hstarts

/-- A statement, its gap and a seam are read off any text that has them in front, whatever
comes behind.  The gap may be another one if it starts with the same blank. -/
theorem parted_gap_append {us : List Token} {d : Draft} (hs : Statement us d)
    (hb : d.brackets = []) {gap gap' v : Text} {e : Char} (hgap : IsGap gap)
    (hhead : gap'.head? = gap.head?) (he : isSeam e = true)
    (h : Token.Parted us (gap ++ e :: v)) (v' : Text) : Token.Parted us (gap' ++ e :: v') := by
  cases gap with
  | nil =>
    cases gap' with
    | nil => exact h.replace he (hs.shut hb) v'
    | cons c gap' => cases hhead
  | cons c gap =>
    cases gap' with
    | nil => cases hhead
    | cons c' gap' =>
      obtain rfl := Option.some.inj hhead
      have hc := isSeam_of_isBlank (hgap c' List.mem_cons_self)
      exact h.replace hc (hs.shut hb) _

theorem ofText_append {us : List Token} {gap v : Text} (hgap : IsGap gap)
    (h : Token.Parted us (gap ++ v)) :
    Token.ofText (Token.textOf us ++ (gap ++ v)) = us ++ (Token.ofGap gap ++ Token.ofText v) := by
  rw [h, Token.ofText_gap_append hgap.isLoose]

/-! ## Statements in a rewritten text -/

variable {us : List Token} {d : Draft} {before after gap : Text} {n : Node} {r : Reader}

/-- A statement in which no `:host` starts, in front of what ends it. -/
theorem ofText_rewriteForms (hs : Statement us d) (hb : d.brackets = []) (hgap : IsGap gap)
    (hclear : Clear (Token.textOf us) []) {v : Text} {e : Char} (he : isSeam e = true)
    (hne : e ∉ hostSelector) (hparted : Token.Parted us (gap ++ e :: v)) (w : Text) :
    Token.ofText (rewriteForms (Token.textOf us ++ (gap ++ e :: w))) =
      us ++ (Token.ofGap gap ++ Token.ofText (e :: rewriteForms w)) := by
  rw [← List.append_assoc, rewriteForms_append_cons (hclear.append_gap hgap) hne,
    List.append_assoc, ofText_append hgap (hs.parted_gap_append hb hgap rfl he hparted _)]

theorem reads_rewriteForms (hs : Statement us d) (hb : d.brackets = []) (hgap : IsGap gap)
    (hn : d.node before after = .ok n) (hclear : Clear (Token.textOf us) []) {v : Text}
    (hparted : Token.Parted us (gap ++ ';' :: v)) (hd : r.draft = none) (w : Text) :
    r.Reads (Token.ofText (rewriteForms (Token.textOf us ++ (gap ++ ';' :: w))))
      (Node.sift Label.item? [n]) (Token.ofText (rewriteForms w)) := by
  rw [hs.ofText_rewriteForms hb hgap hclear rfl (by decide) hparted, Token.ofText_semicolon,
    ← List.append_assoc]
  exact Reader.reads_statement hd hs hb hgap hn _

/-- The last statement of a block. -/
theorem reads_rewriteForms_curly (hs : Statement us d) (hb : d.brackets = []) (hgap : IsGap gap)
    (hn : d.node before after = .ok n) (hclear : Clear (Token.textOf us) []) {v : Text}
    (hparted : Token.Parted us (gap ++ '\x7d' :: v)) (hd : r.draft = none) (w : Text) :
    r.Reads (Token.ofText (rewriteForms (Token.textOf us ++ (gap ++ '\x7d' :: w))))
      (Node.sift Label.item? [n]) (Token.ofText (rewriteForms ('\x7d' :: w))) := by
  rw [hs.ofText_rewriteForms hb hgap hclear rfl (by decide) hparted,
    rewriteForms_cons (by decide), Token.ofText_closer_curly, ← List.append_assoc]
  exact Reader.reads_last hd hs hgap hn (.inl ⟨hb, _, rfl⟩)

/-- The last statement of the text. -/
theorem reads_rewriteForms_nil (hs : Statement us d) (hgap : IsGap gap)
    (hb : d.brackets = [] ∨ gap = []) (hn : d.node before after = .ok n)
    (hclear : Clear (Token.textOf us) []) (hparted : Token.Parted us gap)
    (hd : r.draft = none) :
    r.Reads (Token.ofText (rewriteForms (Token.textOf us ++ gap))) (Node.sift Label.item? [n])
      [] := by
  have hend : Token.ofText (Token.textOf us ++ gap) = us ++ Token.ofGap gap := by
    have := ofText_append (v := []) hgap (by rwa [List.append_nil])
    rwa [List.append_nil, Token.ofText, List.append_nil] at this
  rw [rewriteForms_of_clear (hclear.append_gap hgap), hend, ← List.append_nil (us ++ _)]
  exact Reader.reads_last hd hs hgap hn (.inr ⟨hb, rfl⟩)

/-- A statement with its block. -/
theorem fares_rewriteForms {good : Bool} {head : BlockHead} (hs : Statement us d)
    (hb : d.brackets = []) (hgap : IsGap gap)
    (hh : (d.withGap gap).blockHead? before = some head) (hclear : Clear (Token.textOf us) [])
    {v : Text} (hparted : Token.Parted us (gap ++ '\x7b' :: v)) (hd : r.draft = none) {w : Text}
    {items : List Item} {ts : List Token}
    (hinner : ∀ r' : Reader, r'.draft = none →
      Reader.Fares good r' (Token.ofText (rewriteForms w)) items (.closer .curly :: ts)) :
    Reader.Fares good r (Token.ofText (rewriteForms (Token.textOf us ++ (gap ++ '\x7b' :: w))))
      (head.outline ++ items) ts := by
  rw [hs.ofText_rewriteForms hb hgap hclear rfl (by decide) hparted, Token.ofText_opener_curly,
    ← List.append_assoc]
  exact Reader.fares_block hd hs hb hgap hh hinner

end Statement

/-! ## The first token -/

namespace Syntax

theorem startsName_replace {a s s' : Text} {k k' : Char} (hk : k = ':' ∨ k = '&')
    (hk' : k' = ':' ∨ k' = '&') : startsName (a ++ k :: s) = startsName (a ++ k' :: s') := by
  have hother : ∀ {c : Char} (r : Text), c ≠ '\\' → c ≠ '-' →
      startsName (c :: r) = isNameStart c := by
    intro c r hbackslash hdash
    unfold startsName
    split <;> simp_all
  have hnewline : ∀ (a : Text), startsWithNewline (a ++ k :: s) =
      startsWithNewline (a ++ k' :: s') := by
    intro a
    cases a with
    | nil => rcases hk with rfl | rfl <;> rcases hk' with rfl | rfl <;> rfl
    | cons c a => rfl
  cases a with
  | nil => rcases hk with rfl | rfl <;> rcases hk' with rfl | rfl <;> rfl
  | cons c a =>
    by_cases hbackslash : c = '\\'
    · subst hbackslash
      exact congrArg (!·) (hnewline a)
    · by_cases hdash : c = '-'
      · subst hdash
        cases a with
        | nil => rcases hk with rfl | rfl <;> rcases hk' with rfl | rfl <;> rfl
        | cons c a => rfl
      · rw [List.cons_append, List.cons_append, hother _ hbackslash hdash,
          hother _ hbackslash hdash]

namespace Token

theorem read_fst_eq_atName {c : Char} {r name : Text} (h : (read c r).1 = .atName name) :
    c = '@' ∧ startsName r = true := by
  unfold read at h
  split at h
  · cases h
  split at h
  · cases h
  split at h
  · cases h
  split at h
  · obtain ⟨raw, hraw⟩ := readSign_fst c r
    rw [hraw] at h
    cases h
  split at h
  · rcases readNamed_fst c r with ⟨raw, hraw⟩ | ⟨raw, hraw⟩
    · rw [hraw] at h; cases h
    · rw [hraw] at h; cases h
  split at h
  · rename_i hname
    exact hname
  split at h
  · cases h
  · unfold readMark at h
    split at h
    · obtain ⟨body, isClosed, hcomment⟩ := readComment_fst _
      rw [hcomment] at h
      cases h
    · split at h
      · rename_i hmark
        unfold ofMark? at hmark
        split at hmark <;> cases hmark <;> cases h
      · obtain ⟨raw, hraw⟩ := readSign_fst _ _
        rw [hraw] at h
        cases h

theorem read_fst_eq_comment {c : Char} {r body : Text} {isClosed : Bool}
    (h : (read c r).1 = .comment body isClosed) : c = '/' ∧ r.head? = some '*' := by
  obtain ⟨u, hu, happ⟩ := splits_read c r
  rw [h] at hu
  cases isClosed with
  | true =>
    obtain ⟨rfl, rfl⟩ := List.cons.inj hu
    exact ⟨rfl, by rw [← happ]; rfl⟩
  | false =>
    obtain ⟨rfl, rfl⟩ := List.cons.inj hu
    exact ⟨rfl, by rw [← happ]; rfl⟩

theorem read_at {r : Text} (h : startsName r = true) :
    (read '@' r).1 = .atName (Name.read r).taken := by
  have hnumber : startsNumber ('@' :: r) = false := rfl
  have harrow : startsDashArrow ('@' :: r) = false := rfl
  have hname : startsName ('@' :: r) = false := rfl
  unfold read
  rw [hnumber, harrow, hname, if_neg (by decide), if_neg (by decide), if_neg (by decide),
    if_neg (by decide), if_neg (by decide), if_pos ⟨rfl, h⟩]

end Token

/-- A text whose first token starts a statement that is no at-rule. -/
def Opens (s : Text) : Prop :=
  ∃ c r, s = c :: r ∧ isBlank c = false ∧ c ≠ ';' ∧ c ≠ '\x7d' ∧
    (c = '/' → r.head? ≠ some '*') ∧ (c = '@' → startsName r = false)

theorem Opens.ofText {s : Text} (h : Opens s) :
    ∃ t ts, Token.ofText s = t :: ts ∧ t.startsStatement = true ∧ ∀ name, t ≠ .atName name := by
  obtain ⟨c, r, rfl, hblank, hsemicolon, hclose, hslash, hat⟩ := h
  refine ⟨_, _, by rw [Token.ofText], ?_, ?_⟩
  · obtain ⟨u, hu, _⟩ := Token.splits_read c r
    have hread : (Token.read c r).1.IsRead := ⟨c, r, rfl⟩
    cases ht : (Token.read c r).1 with
    | blank d =>
      rw [ht] at hu hread
      obtain rfl : d = c := (List.cons.inj hu).1
      rw [hread.isBlank] at hblank
      cases hblank
    | semicolon =>
      rw [ht] at hu
      exact absurd (List.cons.inj hu).1.symm hsemicolon
    | comment body isClosed =>
      obtain ⟨hc, hr⟩ := Token.read_fst_eq_comment ht
      exact absurd hr (hslash hc)
    | closer b =>
      cases b with
      | curly =>
        rw [ht] at hu
        exact absurd (List.cons.inj hu).1.symm hclose
      | round => rfl
      | square => rfl
    | _ => rfl
  · intro name ht
    obtain ⟨hc, hr⟩ := Token.read_fst_eq_atName ht
    rw [hat hc] at hr
    cases hr

/-- The first change in a text comes too late for its first token. -/
theorem Opens.dents {s v w : Text} (h : Opens s) (hcolon : ':' ∈ s) (hw : Dents (s ++ v) w) :
    Opens w := by
  obtain ⟨c, r, rfl, hblank, hsemicolon, hclose, hslash, hat⟩ := h
  -- Up to a colon the texts are the same, and there they have a mark each.
  have hsame : ∀ w', c ≠ ':' → Dents (r ++ v) w' → ∃ a b k u, r = a ++ ':' :: b ∧
      w' = a ++ k :: u ∧ (k = ':' ∨ k = '&') := by
    intro w' hc hdents
    have hmem : ':' ∈ r := (List.mem_cons.1 hcolon).resolve_left (Ne.symm hc)
    obtain ⟨a, b, rfl, ha⟩ := List.eq_append_cons_of_mem hmem
    rw [List.append_assoc] at hdents
    obtain ⟨t, rfl, ht⟩ := hdents.exists_append ha
    rw [List.cons_append] at ht
    cases t with
    | nil => exact absurd ht not_dents_nil
    | cons k u =>
      rcases dents_cons_iff.1 ht with ⟨rfl, _⟩ | ⟨_, rfl⟩
      · exact ⟨a, b, ':', u, rfl, rfl, .inl rfl⟩
      · exact ⟨a, b, '&', u, rfl, rfl, .inr rfl⟩
  cases w with
  | nil => exact absurd hw not_dents_nil
  | cons c' w =>
    rcases dents_cons_iff.1 hw with ⟨rfl, hrest⟩ | ⟨rfl, rfl⟩
    swap
    · exact ⟨'&', w, rfl, rfl, by decide, by decide, nofun, nofun⟩
    refine ⟨c, w, rfl, hblank, hsemicolon, hclose, ?_, ?_⟩
    · rintro rfl
      obtain ⟨a, b, k, u, rfl, rfl, hk⟩ := hsame w (by decide) hrest
      cases a with
      | nil => rcases hk with rfl | rfl <;> nofun
      | cons x a => exact hslash rfl
    · rintro rfl
      obtain ⟨a, b, k, u, rfl, rfl, hk⟩ := hsame w (by decide) hrest
      have hsame : startsName (a ++ k :: u) = startsName (a ++ ':' :: b) :=
        startsName_replace hk (.inl rfl)
      rw [hsame]
      exact hat rfl

end Syntax

/-! ## Gaps and the first change -/

theorem Dents.of_gaps {u u' s t : Text} {c c' : Char} (h : Dents (u ++ c :: s) (u' ++ c' :: t))
    (hu : IsGap u) (hu' : IsGap u') (hc : isBlank c = false) (hc' : isBlank c' = false) :
    u = u' ∧ Dents (c :: s) (c' :: t) := by
  induction u generalizing u' with
  | nil =>
    cases u' with
    | nil => exact ⟨rfl, h⟩
    | cons b u' =>
      have hb := hu' b List.mem_cons_self
      rcases dents_cons_iff.1 h with ⟨rfl, _⟩ | ⟨_, rfl⟩
      · rw [hc] at hb; cases hb
      · cases hb
  | cons a u ih =>
    have ha := hu a List.mem_cons_self
    cases u' with
    | nil =>
      rcases dents_cons_iff.1 h with ⟨rfl, _⟩ | ⟨rfl, _⟩
      · rw [hc'] at ha; cases ha
      · cases ha
    | cons b u' =>
      rcases dents_cons_iff.1 h with ⟨rfl, htail⟩ | ⟨rfl, _⟩
      · obtain ⟨rfl, hrest⟩ := ih htail (fun x hx => hu x (List.mem_cons_of_mem _ hx))
          fun x hx => hu' x (List.mem_cons_of_mem _ hx)
        exact ⟨rfl, hrest⟩
      · cases ha

theorem not_dents_of_isGap {u s g : Text} {c : Char} (hu : IsGap u) (hc : isBlank c = false)
    (hg : IsGap g) : ¬Dents (u ++ c :: s) g := by
  induction u generalizing g with
  | nil =>
    intro h
    cases g with
    | nil => exact not_dents_nil h
    | cons b g =>
      have hb := hg b List.mem_cons_self
      rcases dents_cons_iff.1 h with ⟨rfl, _⟩ | ⟨_, rfl⟩
      · rw [hc] at hb; cases hb
      · cases hb
  | cons a u ih =>
    intro h
    cases g with
    | nil => exact not_dents_nil h
    | cons b g =>
      rcases dents_cons_iff.1 h with ⟨_, h⟩ | ⟨rfl, _⟩
      · exact ih (fun x hx => hu x (List.mem_cons_of_mem _ hx))
          (fun x hx => hg x (List.mem_cons_of_mem _ hx)) h
      · have ha := hu ':' List.mem_cons_self
        cases ha

/-! ## Open declarations -/

/-- The tokens of a declaration that stand apart from whatever ends it. -/
structure Waits (us : List Token) (d : Draft) (prop value : Text) : Prop where
  statement : Statement us d
  brackets : d.brackets = []
  node : ∃ between, d.node [] [] = .ok (.declaration ⟨[], prop, between, value, []⟩)
  parted : Token.Parted us []
  seam : ∀ e, isSeam e = true → Token.Parted us [e]
  clear : Clear (Token.textOf us) []
  text : ∃ u w, Token.textOf us = prop ++ u ++ ':' :: w ++ value ∧ IsGap u ∧ IsGap w ∧
    (value = [] → w = []) ∧ ∀ c, value.head? = some c → isBlank c = false

namespace Waits

variable {us : List Token} {d : Draft} {prop value : Text}

theorem parted_gap (h : Waits us d prop value) {gap : Text} (hgap : IsGap gap) {e : Char}
    (he : isSeam e = true) (v : Text) : Token.Parted us (gap ++ e :: v) := by
  cases gap with
  | nil => exact (h.seam e he).replace he (h.statement.shut h.brackets) v
  | cons c gap =>
    have hc := isSeam_of_isBlank (hgap c List.mem_cons_self)
    exact (h.seam c hc).replace hc (h.statement.shut h.brackets) _

theorem parted_of_isGap (h : Waits us d prop value) {gap : Text} (hgap : IsGap gap) :
    Token.Parted us gap := by
  cases gap with
  | nil => exact h.parted
  | cons c gap =>
    have hc := isSeam_of_isBlank (hgap c List.mem_cons_self)
    exact (h.seam c hc).replace hc (h.statement.shut h.brackets) _

theorem opens (h : Waits us d prop value) : Opens (Token.textOf us) := by
  obtain ⟨between, hn⟩ := h.node
  obtain ⟨c₀, v, hv, hblank, hsemicolon, hclose⟩ := h.statement.begins h.parted []
  obtain ⟨t, ts, rfl, hs⟩ := h.statement.starts
  obtain ⟨⟨c, u, htext, hread⟩, _⟩ := Token.parted_cons_iff.1 h.parted
  rw [List.append_nil] at hread hv
  have ht : (Token.read c (u ++ Token.textOf ts)).1 = t := congrArg Prod.fst hread
  rw [Token.textOf_cons, htext] at hv ⊢
  obtain rfl : c = c₀ := (List.cons.inj hv).1
  refine ⟨c, u ++ Token.textOf ts, rfl, hblank, hsemicolon, hclose, ?_, ?_⟩
  · rintro rfl hstar
    obtain ⟨r, hr⟩ : ∃ r, u ++ Token.textOf ts = '*' :: r := by
      cases hu : u ++ Token.textOf ts with
      | nil => rw [hu] at hstar; cases hstar
      | cons a r =>
        rw [hu] at hstar
        obtain rfl := Option.some.inj hstar
        exact ⟨r, rfl⟩
    obtain ⟨body, isClosed, hcomment⟩ := Token.readComment_fst r
    rw [hr] at ht
    have hread : (Token.read '/' ('*' :: r)).1 = .comment body isClosed := hcomment
    rw [← ht, hread] at hs
    cases hs
  · rintro rfl
    cases hname : startsName (u ++ Token.textOf ts) with
    | false => rfl
    | true =>
      -- The name would have made it an at-rule.
      exfalso
      rw [Token.read_at hname] at ht
      subst ht
      have hfeed := h.statement.feed
      rw [Draft.feed_cons] at hfeed
      obtain ⟨d₁, htake, hrest⟩ := Option.bind_eq_some_iff.1 hfeed
      have hnone : d.name = none := by
        rcases Draft.node_cases hn with ⟨name, _, hstatement⟩ | ⟨k, hname, _, _⟩
        · cases hstatement
        · exact hname
      have hd₁ := Draft.name_eq_none_of_feed hrest hnone
      rw [← Option.some.inj htake] at hd₁
      cases hd₁

/-! ## A declaration that is lost -/

theorem colon_mem (h : Waits us d prop value) : ':' ∈ Token.textOf us := by
  obtain ⟨u, w, htext, _⟩ := h.text
  rw [htext]
  simp

/-- Characters that go on behind an open declaration are not the declaration and an end. -/
theorem not_startsWith (h : Waits us d prop value) {gap v w : Text} {c : Char}
    (hgap : IsGap gap) (hc : isBlank c = false) (hne : c ≠ ';') (hne' : c ≠ '\x7d')
    (hw : Dents (Token.textOf us ++ (gap ++ c :: v)) w) : ¬StartsWith w prop value := by
  rintro ⟨u', w', gap', rest, rfl, hu', hw', hgap', hstops⟩
  obtain ⟨u, w, htext, hu, hw₀, hnil, hvalue⟩ := h.text
  have hend : ∀ g : Text, IsGap g → ¬Dents (gap ++ c :: v) (g ++ rest) := by
    intro g hg hdents
    cases rest with
    | nil =>
      rw [List.append_nil] at hdents
      exact not_dents_of_isGap hgap hc hg hdents
    | cons k rest =>
      have hk : k = ';' ∨ k = '\x7d' := hstops k rfl
      have hblank : isBlank k = false := by rcases hk with rfl | rfl <;> rfl
      obtain ⟨_, hlast⟩ := hdents.of_gaps hgap hg hc hblank
      rcases dents_cons_iff.1 hlast with ⟨rfl, _⟩ | ⟨_, rfl⟩
      · rcases hk with hk | hk
        · exact hne hk
        · exact hne' hk
      · rcases hk with hk | hk <;> cases hk
  rw [htext] at hw
  simp only [List.append_assoc, List.cons_append] at hw
  obtain ⟨_, hcolon⟩ := hw.cancel.of_gaps hu hu' rfl rfl
  have hback := hcolon.cancel (u := [':'])
  cases value with
  | nil =>
    rw [hnil rfl] at hback
    exact hend (w' ++ gap') (hw'.append hgap') (by simpa using hback)
  | cons a value =>
    obtain ⟨_, hrest⟩ := hback.of_gaps hw₀ hw' (hvalue a rfl) (hvalue a rfl)
    exact hend gap' hgap' (hrest.cancel (u := a :: value))

/-- An open declaration that goes on is lost. -/
theorem misreads (h : Waits us d prop value) {r : Reader} (hd : r.draft = none) {gap : Text}
    {c : Char} (hgap : IsGap gap) (hc : isBlank c = false) (hne : c ≠ ';') (hne' : c ≠ '\x7d')
    (v : Text) :
    r.Misreads (Token.ofText (rewriteForms (Token.textOf us ++ (gap ++ c :: v))))
      [.declaration prop value] := by
  intro more hmore
  have hdents := dents_rewriteForms (Token.textOf us ++ (gap ++ c :: v))
  obtain ⟨t, ts, htokens, hs, hname⟩ := (h.opens.dents h.colon_mem hdents).ofText
  refine h.not_startsWith hgap hc hne hne' hdents ?_
  rw [← Token.textOf_ofText (rewriteForms _), htokens]
  rw [htokens] at hmore
  refine Reader.startsWith_of_outcome hd hs hname ?_ hmore
  intro u hu
  rw [← htokens] at hu
  exact Token.isRead_of_mem_ofText hu

end Waits

/-! ## What is not read yet -/

theorem Reader.reads_loose {r : Reader} (hd : r.draft = none) {k : Text} (hk : IsLoose k)
    (w : Text) :
    r.Reads (Token.ofText (rewriteForms (k ++ w))) [] (Token.ofText (rewriteForms w)) := by
  rw [rewriteForms_append fun w' => hk.clear w', Token.ofText_gap_append hk]
  exact reads_gap hd k _

/-- Without a semicolon in it, what may stand between nodes is a gap. -/
theorem IsLoose.isGap {k : Text} (h : IsLoose k) (hmem : ';' ∉ k) : IsGap k := by
  intro c hc
  refine (h c hc).resolve_right ?_
  rintro rfl
  exact hmem hc

/-- What stands in front of the rest of a text and is not read yet: nothing, or an open
declaration with a gap. -/
inductive Pending : Bool → Text → List Item → Prop
  | none : Pending false [] []
  | some {us : List Token} {d : Draft} {prop value gap : Text} (h : Waits us d prop value)
      (hgap : IsGap gap) : Pending true (Token.textOf us ++ gap) [.declaration prop value]

namespace Pending

variable {opened : Bool} {q : Text} {items : List Item}

/-- A gap with a semicolon ends an open declaration. -/
theorem reads_gap (h : Pending opened q items) {r : Reader} (hd : r.draft = Option.none) {k : Text}
    (hk : IsLoose k) (hopened : opened = true → ';' ∈ k) (w : Text) :
    r.Reads (Token.ofText (rewriteForms (q ++ (k ++ w)))) items
      (Token.ofText (rewriteForms w)) := by
  cases h with
  | none => exact Reader.reads_loose hd hk w
  | @some us d prop value gap hwaits hgap =>
    obtain ⟨k₁, k₂, rfl, hmem⟩ := List.eq_append_cons_of_mem (hopened rfl)
    have hk₁ : IsGap k₁ :=
      IsLoose.isGap (fun c hc => hk c (List.mem_append_left _ hc)) hmem
    have hk₂ : IsLoose k₂ := fun c hc =>
      hk c (List.mem_append_right _ (List.mem_cons_of_mem _ hc))
    have hsplit : Token.textOf us ++ gap ++ (k₁ ++ ';' :: k₂ ++ w) =
        Token.textOf us ++ (gap ++ k₁) ++ ';' :: (k₂ ++ w) := by simp
    obtain ⟨between, hn⟩ := hwaits.node
    have hall := hgap.append hk₁
    have hread := hwaits.statement.reads_rewriteForms hwaits.brackets hall hn hwaits.clear
      (hwaits.parted_gap hall rfl []) hd (k₂ ++ w)
    have hrest := hread.trans fun r' hr' => Reader.reads_loose hr'.draft hk₂ w
    rw [Node.sift_singleton] at hrest
    rw [hsplit, List.append_assoc]
    exact hrest

/-- At the end of its list an open declaration ends in any case. -/
theorem reads_end (h : Pending opened q items) {r : Reader} (hd : r.draft = Option.none)
    {k w : Text} (hk : IsLoose k) (hw : w = [] ∨ ∃ v, w = '\x7d' :: v) :
    r.Reads (Token.ofText (rewriteForms (q ++ (k ++ w)))) items
      (Token.ofText (rewriteForms w)) := by
  by_cases hopened : opened = true → ';' ∈ k
  · exact h.reads_gap hd hk hopened w
  rw [Classical.not_imp] at hopened
  obtain ⟨rfl, hmem⟩ := hopened
  have hgap : IsGap k := hk.isGap hmem
  cases h with
  | @some us d prop value gap hwaits hgap₀ =>
    obtain ⟨between, hn⟩ := hwaits.node
    have hall := hgap₀.append hgap
    rw [List.append_assoc, ← List.append_assoc gap]
    rcases hw with rfl | ⟨v, rfl⟩
    · have hread := hwaits.statement.reads_rewriteForms_nil hall (.inl hwaits.brackets) hn
        hwaits.clear (hwaits.parted_of_isGap hall) hd
      rw [Node.sift_singleton] at hread
      rw [List.append_nil, rewriteForms_of_clear (t := []) trivial, Token.ofText]
      exact hread
    · have hread := hwaits.statement.reads_rewriteForms_curly hwaits.brackets hall hn
        hwaits.clear (hwaits.parted_gap hall rfl []) hd v
      rw [Node.sift_singleton] at hread
      exact hread

/-- In front of anything but the end of its list, an open declaration is read as it was if
and only if there is a semicolon in the gap behind it. -/
theorem fares_gap (h : Pending opened q items) {r : Reader} (hd : r.draft = Option.none)
    {k w : Text} (hk : IsLoose k)
    (hw : Begins w) :
    Reader.Fares (!opened || k.contains ';') r (Token.ofText (rewriteForms (q ++ (k ++ w)))) items
      (Token.ofText (rewriteForms w)) := by
  by_cases hopened : opened = true → ';' ∈ k
  · have hgood : (!opened || k.contains ';') = true := by
      cases opened with
      | false => rfl
      | true => simpa using hopened rfl
    rw [hgood]
    exact h.reads_gap hd hk hopened w
  · rw [Classical.not_imp] at hopened
    obtain ⟨rfl, hmem⟩ := hopened
    have hbad : (!true || k.contains ';') = false := by simpa using hmem
    rw [hbad]
    have hgap : IsGap k := hk.isGap hmem
    obtain ⟨c, v, rfl, hc, hne, hne'⟩ := hw
    cases h with
    | @some us d prop value gap hwaits hgap₀ =>
      rw [List.append_assoc, ← List.append_assoc gap]
      exact hwaits.misreads hd (hgap₀.append hgap) hc hne hne' v

/-- A gap without a semicolon leaves open what was open. -/
theorem append (h : Pending opened q items) {k : Text} (hk : IsLoose k) (hopened : opened = true)
    (hmem : ';' ∉ k) : Pending true (q ++ k) items := by
  have hgap : IsGap k := hk.isGap hmem
  cases h with
  | none => cases hopened
  | some hwaits hgap₀ =>
    rw [List.append_assoc]
    exact .some hwaits (hgap₀.append hgap)

end Pending

end HostSheet
