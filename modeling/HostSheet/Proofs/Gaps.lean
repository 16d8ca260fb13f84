import Mathlib
import HostSheet.Proofs.RoundTrip

set_option autoImplicit false

/-!
# The nodes that reading makes

A node that was read was made by one of three moves: a comment, a statement that ended, or
a block that was closed.  So what holds of these holds of every node of a stylesheet that
was parsed, at every depth (`Sheet.every_of_parse`).  A first use: the gaps of such a
stylesheet hold blanks, and between nodes semicolons, and nothing else.
-/

namespace HostSheet

open Syntax

/-! ## Properties of all nodes -/

namespace Node

mutual

/-- A property of a node and of all nodes inside it. -/
def Every (p : Node → Prop) : Node → Prop
  | rule head nodes ending => p (rule head nodes ending) ∧ EveryIn p nodes
  | atBlock head nodes ending => p (atBlock head nodes ending) ∧ EveryIn p nodes
  | n => p n

/-- A property of nodes at every depth. -/
def EveryIn (p : Node → Prop) : List Node → Prop
  | [] => True
  | n :: ns => Every p n ∧ EveryIn p ns

end

theorem everyIn_append {p : Node → Prop} {ms ns : List Node} :
    EveryIn p (ms ++ ns) ↔ EveryIn p ms ∧ EveryIn p ns := by
  induction ms with
  | nil => simp [EveryIn]
  | cons m ms ih => rw [List.cons_append, EveryIn, EveryIn, ih, and_assoc]

theorem everyIn_singleton {p : Node → Prop} {n : Node} : EveryIn p [n] ↔ Every p n := by
  simp [EveryIn]

theorem every_of_children?_eq_none {p : Node → Prop} {n : Node} (h : n.children? = none) :
    Every p n ↔ p n := by
  cases n with
  | rule head nodes ending => cases h
  | atBlock head nodes ending => cases h
  | atStatement head ending => simp [Every]
  | declaration d => simp [Every]
  | comment c => simp [Every]

theorem every_node {p : Node → Prop} {head : BlockHead} {ns : List Node} {e : Ending} :
    Every p (head.node ns e) ↔ p (head.node ns e) ∧ EveryIn p ns := by
  cases head <;> simp only [BlockHead.node, Every]

end Node

/-! ## Gaps -/

/-- A gap inside a statement. -/
def IsGap (t : Text) : Prop := ∀ c ∈ t, isBlank c = true

/-- A gap between nodes, where semicolons may stand that end nothing. -/
def IsLoose (t : Text) : Prop := ∀ c ∈ t, isBlank c = true ∨ c = ';'

instance : DecidablePred IsGap := fun t => List.decidableBAll _ t

instance : DecidablePred IsLoose := fun t => List.decidableBAll _ t

theorem isGap_nil : IsGap [] := nofun

theorem isLoose_nil : IsLoose [] := nofun

theorem IsGap.isLoose {t : Text} (h : IsGap t) : IsLoose t := fun c hc => .inl (h c hc)

theorem IsGap.append {t u : Text} (ht : IsGap t) (hu : IsGap u) : IsGap (t ++ u) := by
  intro c hc
  exact (List.mem_append.1 hc).elim (ht c) (hu c)

theorem IsLoose.append {t u : Text} (ht : IsLoose t) (hu : IsLoose u) :
    IsLoose (t ++ u) := by
  intro c hc
  exact (List.mem_append.1 hc).elim (ht c) (hu c)

theorem isGap_takeWhile (t : Text) : IsGap (t.takeWhile isBlank) :=
  fun _ hc => List.mem_takeWhile_imp hc

theorem isGap_takeEnd (t : Text) : IsGap (Text.takeEnd isBlank t) := by
  intro c hc
  rw [Text.takeEnd, List.mem_reverse] at hc
  exact List.mem_takeWhile_imp hc

/-! ## Reading -/

namespace Draft

/-- The gap of a statement that is being read holds blanks only. -/
theorem Takes.isGap {d d' : Draft} {t : Token} (h : d.Takes t d') (ht : t.IsRead)
    (hd : IsGap d.gap) : IsGap d'.gap := by
  cases h with
  | blank c hb =>
    refine hd.append ?_
    intro a ha
    obtain rfl := List.mem_singleton.1 ha
    exact ht.isBlank
  | name name hb hf => exact hd
  | colon hb =>
    unfold addColon
    split
    · exact isGap_nil
    · exact isGap_nil
  | add t brackets => exact isGap_nil

end Draft

namespace Reader

/-- What makes all nodes of a reader have `p`, if statements have `q` as they are read. -/
structure Tidy (p : Node → Prop) (q : Draft → Prop) (r : Reader) : Prop where
  nodes : Node.EveryIn p r.level.nodes
  before : IsLoose r.before
  draft : ∀ d, r.draft = some d → q d ∧ IsGap d.gap ∧ d.isFresh = false
  blocks : ∀ b ∈ r.blocks, Node.EveryIn p b.outer.nodes ∧
    ∃ d before, q d ∧ IsGap d.gap ∧ IsLoose before ∧ d.blockHead? before = some b.head

/-- What `Tidy` asks of the nodes and statements for every move to keep it. -/
structure Makes (p : Node → Prop) (q : Draft → Prop) : Prop where
  fresh : ∀ offset, q { offset := offset }
  takes : ∀ {d t d'}, q d → t.IsRead → (d.isFresh = true → t.startsStatement = true) →
    d.take? t = some d' → q d'
  comment : ∀ {before body}, IsLoose before → (Token.comment body true).IsRead →
    p (.comment ⟨before, body⟩)
  node : ∀ {d before after n}, q d → IsLoose before → IsGap after →
    d.node before after = .ok n → p n
  block : ∀ {d before head nodes ending}, q d → IsGap d.gap → IsLoose before →
    d.blockHead? before = some head → Node.EveryIn p nodes → IsLoose ending.after →
    p (head.node nodes ending)

variable {p : Node → Prop} {q : Draft → Prop}

theorem Makes.every_node {d : Draft} {before after : Text} {n : Node} (hm : Makes p q) (hq : q d)
    (hbefore : IsLoose before) (hafter : IsGap after) (h : d.node before after = .ok n) :
    Node.Every p n :=
  (Node.every_of_children?_eq_none (Draft.children?_of_node h)).2 (hm.node hq hbefore hafter h)

/-- Between nodes one more character joins the gap. -/
theorem Tidy.join {r : Reader} (h : r.Tidy p q) {c : Char} (hc : IsLoose [c]) :
    Tidy p q { r with before := r.before ++ [c] } :=
  ⟨h.nodes, h.before.append hc, h.draft, h.blocks⟩

/-- A complete node is added, whatever its semicolon. -/
theorem Tidy.push {r : Reader} (h : r.Tidy p q) {n : Node} (hn : Node.Every p n)
    (terminated : Bool) :
    Tidy p q { r.push n with level := { (r.push n).level with terminated := terminated } } :=
  ⟨Node.everyIn_append.2 ⟨h.nodes, Node.everyIn_singleton.2 hn⟩, isLoose_nil, nofun, h.blocks⟩

/-- A statement that is open, or opened, takes one more token. -/
theorem Tidy.take {r : Reader} {t : Token} {d : Draft} (hm : Makes p q) (h : r.Tidy p q)
    (ht : t.IsRead) (hs : r.draft = none → t.startsStatement = true)
    (htake : r.statement.take? t = some d) : Tidy p q { r with draft := some d } := by
  refine ⟨h.nodes, h.before, ?_, h.blocks⟩
  intro d' hd'
  obtain rfl := Option.some.inj hd'
  have htakes := Draft.takes_of_take? htake
  obtain ⟨hq, hgap, hfresh⟩ : q r.statement ∧ IsGap r.statement.gap ∧
      (r.statement.isFresh = true → t.startsStatement = true) := by
    cases hd : r.draft with
    | none =>
      rw [statement_of_draft_eq_none hd]
      exact ⟨hm.fresh r.offset, isGap_nil, fun _ => hs hd⟩
    | some d₀ =>
      obtain ⟨hq, hgap, hstarted⟩ := h.draft d₀ hd
      rw [statement_of_draft hd, hstarted]
      exact ⟨hq, hgap, nofun⟩
  exact ⟨hm.takes hq ht hfresh htake, htakes.isGap ht hgap, htakes.isFresh ht.text_ne_nil hfresh⟩

theorem Tidy.settles {r r' : Reader} (hm : Makes p q) (h : r.Tidy p q)
    (hs : r.Settles r') : r'.Tidy p q ∧ r'.draft = none := by
  cases hs with
  | none hd => exact ⟨h, hd⟩
  | @some d n hd hn =>
    obtain ⟨hq, hgap, _⟩ := h.draft d hd
    have hpush := h.push (hm.every_node hq h.before isGap_nil hn) false
    exact ⟨⟨hpush.nodes, hgap.isLoose, hpush.draft, hpush.blocks⟩, rfl⟩

/-- A block that is closed is a node of the list around it. -/
theorem Tidy.closed {r : Reader} {b : OpenBlock} {blocks : List OpenBlock} (hm : Makes p q)
    (h : r.Tidy p q) (hb : r.blocks = b :: blocks) : (r.closed b blocks).Tidy p q := by
  obtain ⟨houter, d, before, hq, hgap, hbefore, hh⟩ := h.blocks b (by rw [hb]; simp)
  have hp : p (b.head.node r.level.nodes ⟨r.before, r.level.terminated⟩) :=
    hm.block hq hgap hbefore hh h.nodes h.before
  refine ⟨?_, isLoose_nil, nofun, fun b' hb' => h.blocks b' ?_⟩
  · exact Node.everyIn_append.2
      ⟨houter, Node.everyIn_singleton.2 (Node.every_node.2 ⟨hp, h.nodes⟩)⟩
  · rw [hb]
    exact List.mem_cons_of_mem _ hb'

theorem Tidy.move {r r' : Reader} {t : Token} (hm : Makes p q) (h : r.Tidy p q)
    (hmove : r.Move t r') (ht : t.IsRead) : r'.Tidy p q := by
  cases hmove with
  | blank c hd => exact h.join fun a ha => List.mem_singleton.1 ha ▸ .inl ht.isBlank
  | stray hd => exact h.join fun a ha => .inr (List.mem_singleton.1 ha)
  | comment body hd =>
    have hp := hm.comment h.before ht
    exact h.push ((Node.every_of_children?_eq_none rfl).2 hp) r.level.terminated
  | take hs htake => exact h.take hm ht hs htake
  | @terminate d n hd hb hn =>
    obtain ⟨hq, hgap, _⟩ := h.draft d hd
    exact h.push (hm.every_node hq h.before hgap hn) true
  | @enter name d head hd hb hh =>
    obtain ⟨hq, hgap, _⟩ := h.draft d hd
    refine ⟨trivial, isLoose_nil, nofun, ?_⟩
    intro b hb
    rcases List.mem_cons.1 hb with rfl | hb
    · exact ⟨h.nodes, d, r.before, hq, hgap, h.before, hh⟩
    · exact h.blocks b hb
  | close hs hd hb => exact (h.settles hm hs).1.closed hm hb

end Reader

namespace Sheet

variable {p : Node → Prop} {q : Draft → Prop}

/-- What holds of the nodes that reading makes holds of every node of a stylesheet that
was parsed. -/
theorem every_of_parse (hm : Reader.Makes p q) {s : Text} {sheet : Sheet}
    (h : parse s = .ok sheet) :
    Node.EveryIn p sheet.nodes ∧ IsLoose sheet.ending.after := by
  obtain ⟨r, hrun, hfinish⟩ := run_of_parse h
  have hstart : ({} : Reader).Tidy p q := ⟨trivial, isLoose_nil, nofun, nofun⟩
  have hkept := Reader.induction
    (P := fun ts r => (∀ t ∈ ts, t.IsRead) ∧ r.Tidy p q)
    (fun _ _ _ hp => ⟨hp.1, hp.2.nodes, hp.2.before, hp.2.draft, hp.2.blocks⟩)
    (fun t ts r r' hp hmove => ⟨fun u hu => hp.1 u (List.mem_cons_of_mem _ hu),
      hp.2.move hm hmove (hp.1 t List.mem_cons_self)⟩)
    ⟨fun t ht => Token.isRead_of_mem_ofText ht, hstart⟩ hrun
  obtain ⟨r', hs, _, rfl⟩ := Reader.settles_of_finish hfinish
  obtain ⟨htidy, _⟩ := hkept.2.settles hm hs
  exact ⟨htidy.nodes, htidy.before⟩

end Sheet

/-! ## The gaps of nodes -/

namespace Node

/-- The gaps of a node hold blanks, and those between nodes semicolons as well. -/
def HasGaps : Node → Prop
  | rule head _ ending => IsLoose head.before ∧ IsGap head.between ∧ IsLoose ending.after
  | atBlock head _ ending =>
    IsLoose head.before ∧ IsGap head.afterName ∧ IsGap head.between ∧ IsLoose ending.after
  | atStatement head _ => IsLoose head.before ∧ IsGap head.afterName ∧ IsGap head.between
  | declaration d =>
    IsLoose d.before ∧ (∃ u v, d.between = u ++ ':' :: v ∧ IsGap u ∧ IsGap v) ∧ IsGap d.after
  | comment c => IsLoose c.before

theorem makes_hasGaps : Reader.Makes HasGaps fun _ => True where
  fresh := fun _ => trivial
  takes := fun _ _ _ _ => trivial
  comment := fun hbefore _ => hbefore
  node := by
    intro d before after n _ hbefore hafter h
    rcases Draft.node_cases h with ⟨name, _, rfl⟩ | ⟨k, _, _, rfl⟩
    · exact ⟨hbefore, isGap_takeWhile _, hafter⟩
    · exact ⟨hbefore, ⟨_, _, rfl, isGap_takeEnd _, isGap_takeWhile _⟩, hafter⟩
  block := by
    intro d before head nodes ending _ hgap hbefore h _ hafter
    rcases Draft.blockHead_cases h with ⟨name, _, rfl⟩ | ⟨_, rfl⟩
    · exact ⟨hbefore, isGap_takeWhile _, hgap, hafter⟩
    · exact ⟨hbefore, hgap, hafter⟩

end Node

/-- A stylesheet that was parsed has nothing but blanks and semicolons in its gaps. -/
theorem Sheet.hasGaps_of_parse {s : Text} {sheet : Sheet} (h : parse s = .ok sheet) :
    Node.EveryIn Node.HasGaps sheet.nodes ∧ IsLoose sheet.ending.after :=
  every_of_parse Node.makes_hasGaps h

end HostSheet
