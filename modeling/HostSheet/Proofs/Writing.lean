import Mathlib
import HostSheet.Proofs.Regularity
import HostSheet.Proofs.Scanning

set_option autoImplicit false

/-!
# Stylesheets that are written and read back

A stylesheet that was put together by hand comes back from its text as it is, gaps and semicolons
included, if its texts are closed and its gaps are as reading makes them (`Sheet.parse_print`).
Two things carry this.  Every node alone is found again in its text (`Node.IsSound.stands`),
for its fields are closed texts between gaps.  And a list gives its last statement a semicolon
just when reading the list would say so (`Node.EndsAs`).
-/

namespace HostSheet

open Syntax

/-! ## Statements of closed texts -/

theorem Syntax.Opens.admits {x : Text} (h : Opens x) (offset : Nat) :
    Draft.Admits { offset := offset } (Token.ofText x) := by
  obtain ⟨t, ts, heq, hstarts, hname⟩ := h.ofText
  intro _
  refine ⟨rfl, fun u hu => ?_⟩
  rw [heq] at hu
  rw [← Option.some.inj hu]
  exact ⟨hstarts, hname⟩

theorem Draft.Gains.statement {x : Text} {d : Draft}
    (h : Draft.Gains { offset := 0 } (Token.ofText x) d) (hopens : Opens x) :
    Statement (Token.ofText x) d := by
  obtain ⟨t, ts, heq, hstarts, _⟩ := hopens.ofText
  exact ⟨⟨t, ts, heq, hstarts⟩, h.feed, h.gap⟩

/-- A closed text starts a statement, unless it starts as an at-rule or a comment does. -/
theorem Text.IsClosed.opens {x : Text} (h : Text.IsClosed x) (hat : x.head? ≠ some '@')
    (hcomment : Text.startsComment x = false) : Opens x := by
  obtain ⟨c, r, rfl⟩ := List.exists_cons_of_ne_nil h.ne_nil
  have haccepts := h.accepts
  refine ⟨c, r, rfl, h.head c rfl, ?_, ?_, ?_, fun heq => absurd (congrArg some heq) hat⟩
  · rintro rfl
    rw [Token.ofText_semicolon] at haccepts
    cases haccepts
  · rintro rfl
    rw [Token.ofText_closer_curly] at haccepts
    cases haccepts
  · rintro rfl hstar
    cases r with
    | nil => cases hstar
    | cons a r =>
      obtain rfl := Option.some.inj hstar
      cases hcomment

/-- A closed text that starts no at-rule is a statement. -/
theorem Text.IsClosed.exists_standing {x : Text} (h : Text.IsClosed x) (hopens : Opens x) :
    ∃ d, Standing (Token.ofText x) d ∧ d.name = none ∧ d.content = x := by
  obtain ⟨d, hd⟩ := h.exists_gains (d := { offset := 0 }) rfl (hopens.admits 0)
  refine ⟨d, ⟨hd.statement hopens, hd.brackets, fun w hw => h.firm.parted hw⟩, hd.name, ?_⟩
  rw [hd.content, Token.textOf_ofText]
  rfl

/-- Where a run at the end of a text starts. -/
theorem Text.takeEnd_run {p : Char → Bool} {u v : Text}
    (hu : ∀ c, u.getLast? = some c → p c = false) (hv : ∀ c ∈ v, p c = true) :
    Text.takeEnd p (u ++ v) = v ∧ Text.dropEnd p (u ++ v) = u := by
  have hv' : ∀ c ∈ v.reverse, p c = true := fun c hc => hv c (List.mem_reverse.1 hc)
  have hu' : ∀ c, u.reverse.head? = some c → p c = false := by
    intro c hc
    rw [List.head?_reverse] at hc
    exact hu c hc
  rw [Text.takeEnd, Text.dropEnd, List.reverse_append, Text.takeWhile_run hv' hu',
    Text.dropWhile_run hv' hu', List.reverse_reverse, List.reverse_reverse]
  exact ⟨rfl, rfl⟩

/-- A property that is plain and a closed value. -/
structure Declaration.IsSound (d : Declaration) : Prop where
  prop : Text.IsProperty d.prop
  value : Text.IsClosed d.value

/-- A property, and the gap behind it, lead up to the colon of a declaration. -/
theorem Text.IsProperty.exists_atColon {x g : Text} (h : Text.IsProperty x) (hg : IsGap g) :
    ∃ d, Statement.AtColon (Token.ofText x ++ Token.ofGap g) d ∧ d.name = none := by
  obtain ⟨d, hd⟩ := h.isClosed.exists_gains (d := { offset := 0 }) rfl (h.opens.admits 0)
  have hcontent : d.content = x := by
    rw [hd.content, Token.textOf_ofText]
    rfl
  have hfeed : Draft.feed { offset := 0 } (Token.ofText x ++ Token.ofGap g) =
      some (d.withGap g) := by
    rw [Draft.feed_append, hd.feed, Option.bind_some, Draft.feed_ofGap hd.brackets hg, hd.gap]
    rfl
  have hstarts : ∀ vs, ∃ t ts, Token.ofText x ++ Token.ofGap g ++ .colon :: vs = t :: ts ∧
      t.startsStatement = true := by
    intro vs
    obtain ⟨t, ts, heq, hstarts, _⟩ := h.opens.ofText
    exact ⟨t, _, by rw [heq, List.append_assoc, List.cons_append], hstarts⟩
  have hnone : d.colon = none := hd.colon (.inr h.colon_not_mem)
  refine ⟨(d.withGap g).addColon,
    Statement.atColon_addColon hfeed hstarts hd.brackets hnone ?_, ?_⟩
  · rw [Token.textOf_append, Token.textOf_ofText, Token.textOf_ofGap]
    exact congrArg (· ++ g) hcontent
  · exact (Draft.name_addColon _).trans hd.name

namespace Declaration.IsSound

variable {decl : Declaration} {g g' : Text}

/-- Behind the colon stand a gap and the value. -/
theorem exists_halves (h : decl.IsSound) (hg : IsGap g) (hg' : IsGap g') :
    ∃ d, Statement.Halves (Token.ofText decl.prop ++ Token.ofGap g) g' (Token.ofText decl.value) d
      (decl.prop ++ g) := by
  obtain ⟨d₁, hat, hname⟩ := h.prop.exists_atColon hg
  have htext : Token.textOf (Token.ofText decl.prop ++ Token.ofGap g) = decl.prop ++ g := by
    rw [Token.textOf_append, Token.textOf_ofText, Token.textOf_ofGap]
  have hfresh : (d₁.withGap g').isFresh = false := by
    simp [Draft.isFresh, Draft.withGap, hat.reversed]
  have hk : d₁.colon = some (decl.prop ++ g).length := by
    rw [hat.colon, htext]
  obtain ⟨d, hd⟩ := h.value.exists_gains (d := d₁.withGap g') hat.brackets
    (Draft.admits_of_isFresh_eq_false hfresh _)
  have hs := hat.statement (Token.ofGap g' ++ Token.ofText decl.value) d
    (by rw [hat.feed_ofGap_append hg']; exact hd.feed) hd.gap
  refine ⟨d, hs, hd.brackets, hd.name.trans hname, ?colon, ?content⟩
  case colon =>
    rw [hd.colon (.inl (by simp [Draft.withGap, hk]))]
    exact hk
  case content =>
    rw [hd.content, Draft.withGap, Draft.content, hat.reversed, htext]
    simp

/-- The tokens of a declaration are the same in front of whatever ends it. -/
theorem parted (h : decl.IsSound) (hg : IsGap g) (hg' : IsGap g') {w : Text} (hw : Halts w) :
    Token.Parted (Token.ofText decl.prop ++ Token.ofGap g ++
      .colon :: (Token.ofGap g' ++ Token.ofText decl.value)) w := by
  have hvalue : Token.Parted (Token.ofGap g' ++ Token.ofText decl.value) w :=
    Token.parted_append_iff.2 ⟨Token.parted_ofGap hg'.isLoose _, h.value.firm.parted hw⟩
  have hrest : Token.Parted (.colon :: (Token.ofGap g' ++ Token.ofText decl.value)) w :=
    Token.parted_cons_iff.2 ⟨⟨':', [], rfl, rfl⟩, hvalue⟩
  refine Token.parted_append_iff.2 ⟨Token.parted_append_iff.2
    ⟨h.prop.parted ?_, Token.parted_ofGap hg.isLoose _⟩, hrest⟩
  have hcolon : ∀ v, Breaks (':' :: v) := breaks_cons rfl
  rw [Token.textOf_ofGap]
  exact (hcolon _).gap_append hg

/-- A declaration is a statement, and its colon is the first one. -/
theorem exists_standing (h : decl.IsSound) (hbetween : decl.between = g ++ ':' :: g')
    (hg : IsGap g) (hg' : IsGap g') :
    ∃ us d, Standing us d ∧ ∀ before after, d.node before after =
      .ok (.declaration { decl with before := before, after := after }) := by
  obtain ⟨d, hhalves⟩ := h.exists_halves hg hg'
  have hends := Text.takeEnd_run h.prop.last hg
  refine ⟨_, d, ⟨hhalves.statement, hhalves.brackets, fun w hw => h.parted hg hg' hw⟩,
    fun before after => ?_⟩
  rw [hhalves.node hg' (by rw [Token.textOf_ofText]; exact h.value.head), hends.1, hends.2,
    ← hbetween, Token.textOf_ofText]

end Declaration.IsSound

/-! ## Nodes of closed texts -/

namespace Node

/-- The texts of a node are closed.  A selector starts neither an at-rule nor a comment. -/
def IsSound : Node → Prop
  | rule head _ _ => Text.IsClosed head.selector ∧ head.selector.head? ≠ some '@' ∧
    Text.startsComment head.selector = false
  | atBlock head _ _ => head.IsSound
  | atStatement head _ => head.IsSound
  | declaration d => d.IsSound
  | comment _ => True

/-- A regular node of closed texts is read back wherever its characters are put. -/
theorem IsSound.stands {n : Node} (h : n.IsSound) (hregular : n.IsRegular) : n.Stands := by
  cases n with
  | rule head nodes ending =>
    obtain ⟨hbefore, hbetween, hafter⟩ := hregular.gaps
    obtain ⟨d, hs, hname, hcontent⟩ := h.1.exists_standing (h.1.opens h.2.1 h.2.2)
    refine ⟨hs.stands_blockHead hbefore hbetween ?_, hafter⟩
    have hne : d.reversed.isEmpty = false := by
      rw [List.isEmpty_eq_false_iff]
      intro hnil
      refine h.1.ne_nil ?_
      rw [← hcontent, Draft.content, hnil]
      rfl
    have hselector : ({ d with gap := head.between } : Draft).content = head.selector := hcontent
    simp only [Draft.blockHead?, Draft.withGap, hname, hne, Bool.false_eq_true, if_false]
    rw [hname] at hselector
    rw [hselector]
  | atBlock head nodes ending =>
    obtain ⟨hbefore, hname, hbetween, hafter⟩ := hregular.gaps
    exact ⟨AtHead.IsSound.stands h hbefore hname hbetween, hafter⟩
  | atStatement head ending =>
    obtain ⟨hbefore, hname, hbetween⟩ := hregular.gaps
    obtain ⟨us, d, hs, hd, hcontent⟩ := AtHead.IsSound.exists_standing h hname
    refine ⟨us, d, head.before, head.between, hs, hbefore, hbetween, ?_⟩
    rw [Draft.node, hd, hregular.texts.2]
    dsimp only
    rw [AtHead.IsSound.atHead_eq h hname hcontent]
  | declaration d =>
    obtain ⟨hbefore, ⟨g, g', hbetween, hg, hg'⟩, hafter⟩ := hregular.gaps
    obtain ⟨us, D, hs, hnode⟩ := Declaration.IsSound.exists_standing h hbetween hg hg'
    exact ⟨us, D, d.before, d.after, hs, hbefore, hafter, hnode d.before d.after⟩
  | comment c => exact ⟨hregular.gaps, [], Token.parted_comment hregular.texts []⟩

/-! ## Ends of lists -/

/-- The gap behind a statement without a block. -/
def gapBehind : Node → Text
  | atStatement head _ => head.between
  | declaration d => d.after
  | _ => []

/-- A list ends right behind a statement that has no semicolon, if such a statement is its last
node, comments apart: no comment follows, and the gap up to the end of the list is that of the
list, without a semicolon. -/
def CutsOff (ns : List Node) (e : Ending) : Prop :=
  e.terminated = false → ∀ n, lastNode? ns = some n → n.isStatement = true →
    ns.getLast? = some n ∧ n.gapBehind = [] ∧ ';' ∉ e.after

/-- The list in a block, if there is one, cuts off its last statement. -/
def CutsOffInside : Node → Prop
  | rule _ nodes ending => CutsOff nodes ending
  | atBlock _ nodes ending => CutsOff nodes ending
  | _ => True

theorem cutsOffInside_node {head : BlockHead} {ns : List Node} {e : Ending} :
    (head.node ns e).CutsOffInside ↔ CutsOff ns e := by
  cases head <;> exact Iff.rfl

/-- The ending of a list says what reading the list behind `base` says: whether its last
statement, or the one in front of it, has a semicolon. -/
structure EndsAs (base : Bool) (ns : List Node) (e : Ending) : Prop where
  flag : e.terminated = true → endsInStatement base ns = true
  cut : e.terminated = false → endsInStatement base ns = true →
    ∃ n, ns.getLast? = some n ∧ n.isStatement = true ∧ n.gapBehind = [] ∧ ';' ∉ e.after

theorem endsAs_of_cutsOff {ns : List Node} {e : Ending} (hflag : FlagFits ns e.terminated)
    (hcut : CutsOff ns e) : EndsAs false ns e := by
  refine ⟨flagFits_iff.1 hflag, fun he hends => ?_⟩
  obtain ⟨n, hlast, hn⟩ := endsInStatement_iff.1 hends
  obtain ⟨hend, hgap, hafter⟩ := hcut he n hlast hn
  exact ⟨n, hend, hn, hgap, hafter⟩

namespace EndsAs

variable {base : Bool} {n : Node} {ns : List Node} {e : Ending}

theorem terminated_eq (h : EndsAs base [] e) : e.terminated = base := by
  cases he : e.terminated with
  | true => exact (h.flag he).symm
  | false =>
    cases base with
    | false => rfl
    | true =>
      obtain ⟨n, hlast, _⟩ := h.cut he rfl
      cases hlast

/-- Where a list ends in a statement without a semicolon, this is its first node alone, or the
last one of those behind it. -/
theorem cut_cons (h : EndsAs base (n :: ns) e) (he : e.terminated = false)
    (hends : endsInStatement base (n :: ns) = true) :
    ns = [] ∧ n.isStatement = true ∧ n.gapBehind = [] ∧ ';' ∉ e.after ∨
      ∃ m, ns.getLast? = some m ∧ m.isStatement = true ∧ m.gapBehind = [] ∧ ';' ∉ e.after := by
  obtain ⟨m, hlast, hm⟩ := h.cut he hends
  rw [List.getLast?_cons] at hlast
  obtain rfl := Option.some.inj hlast
  cases hns : ns.getLast? with
  | none =>
    rw [hns] at hm
    exact .inl ⟨List.getLast?_eq_none_iff.1 hns, hm⟩
  | some m =>
    rw [hns] at hm
    exact .inr ⟨m, rfl, hm⟩

theorem tail (h : EndsAs base (n :: ns) e)
    (hn : n.isStatement = true → e.terminated = false → ns ≠ []) :
    EndsAs (if n.isComment then base else n.isStatement) ns e := by
  refine ⟨h.flag, fun he hends => ?_⟩
  rcases h.cut_cons he hends with ⟨hnil, hstatement, _⟩ | hlast
  · exact absurd hnil (hn hstatement he)
  · exact hlast

/-- A statement that gets no semicolon is the last node. -/
theorem eq_nil_of_isComment (h : EndsAs base (n :: ns) e) (hn : n.isStatement = true)
    (he : e.terminated = false) (hcomments : ns.all isComment = true) :
    ns = [] ∧ n.gapBehind = [] ∧ ';' ∉ e.after := by
  have hends : endsInStatement base (n :: ns) = true := by
    rw [endsInStatement_cons, endsInStatement_of_comments hcomments]
    cases n with
    | comment c => cases hn
    | _ => exact hn
  rcases h.cut_cons he hends with ⟨hnil, _, hgap⟩ | ⟨m, hlast, hm, _⟩
  · exact ⟨hnil, hgap⟩
  · have hcomment := List.all_eq_true.1 hcomments m (List.mem_of_getLast? hlast)
    cases m with
    | comment c => cases hm
    | _ => cases hcomment

end EndsAs

/-! ## Lists of nodes -/

theorem gapBehind_of_node {d : Draft} {before after : Text} {n : Node}
    (h : d.node before after = .ok n) : n.gapBehind = after := by
  rcases Draft.node_cases h with ⟨_, _, rfl⟩ | ⟨_, _, _, rfl⟩
  · rfl
  · rfl

/-- A statement is read as itself in front of the nodes behind it.  It has its semicolon because
of the flag of its list or of a node behind it; without one it ends its list. -/
theorem yields_statement {n : Node} {ns : List Node} {base : Bool} {e : Ending} {inBlock : Bool}
    (h : ∀ {base : Bool}, EndsAs base ns e →
      Yields inBlock base (printAll e.terminated ns ++ e.after) ns e)
    (hstatement : n.isStatement = true) (hn : n.Stands) (hends : EndsAs base (n :: ns) e)
    (hafter : IsLoose e.after) :
    Yields inBlock base (printAll e.terminated (n :: ns) ++ e.after) (n :: ns) e := by
  obtain ⟨us, d, before, gap, hs, hbefore, hgap, hnode⟩ :=
    (stands_iff_of_isStatement hstatement).1 hn
  rw [printAll, hs.print_node hnode]
  cases hlast : e.terminated || ns.any (!·.isComment) with
  | true =>
    have htail := hends.tail fun _ he hnil => by
      rw [he, hnil] at hlast
      cases hlast
    rw [Draft.isComment_of_node hnode, hstatement] at htail
    have h : Yields inBlock base _ (n :: ns) e := (h htail).statement hs hbefore hgap hnode
    simp only [terminator, List.append_assoc, List.cons_append, List.nil_append, if_true] at h ⊢
    exact h
  | false =>
    obtain ⟨he, hany⟩ := Bool.or_eq_false_iff.1 hlast
    have hcomments : ns.all isComment = true := by
      rw [List.all_eq_not_any_not, hany]
      rfl
    obtain ⟨rfl, hgapBehind, hmem⟩ := hends.eq_nil_of_isComment hstatement he hcomments
    rw [gapBehind_of_node hnode] at hgapBehind
    subst hgapBehind
    obtain ⟨after, terminated⟩ := e
    obtain rfl : terminated = false := he
    have h : Yields inBlock base _ [n] ⟨after, false⟩ :=
      Yields.last hs hbefore (hafter.isGap hmem) hnode
    simp only [terminator, printAll, List.append_assoc, List.nil_append] at h ⊢
    exact h

/-- What is written for nodes that stand is read as just these nodes with their ending, if the
ending fits. -/
theorem yields_printAll {ns : List Node}
    (h : EveryIn (fun n => n.Stands ∧ n.HasFlag ∧ n.CutsOffInside) ns) {base : Bool} {e : Ending}
    (hends : EndsAs base ns e) (hafter : IsLoose e.after) (inBlock : Bool) :
    Yields inBlock base (printAll e.terminated ns ++ e.after) ns e := by
  induction ns using list_induction generalizing base e inBlock with
  | nil =>
    obtain ⟨after, terminated⟩ := e
    obtain rfl : terminated = base := hends.terminated_eq
    exact .nil hafter
  | block head nodes ending ns ihnodes ih =>
    obtain ⟨hn, hns⟩ := h
    obtain ⟨⟨hnode, hflag, hcut⟩, hnodes⟩ := every_node.1 hn
    obtain ⟨hhead, hloose⟩ := stands_node.1 hnode
    have hinner := ihnodes hnodes
      (endsAs_of_cutsOff (hasFlag_node.1 hflag) (cutsOffInside_node.1 hcut)) hloose true
    have htail := hends.tail (by simp [isStatement_node])
    rw [BlockHead.isComment_node, isStatement_node] at htail
    have hblock : Yields inBlock base _ (head.node nodes ending :: ns) e :=
      (ih hns htail hafter inBlock).block hinner hhead
    rw [printAll, BlockHead.print_node]
    simp only [List.append_assoc, List.cons_append, List.nil_append] at hblock ⊢
    exact hblock
  | comment c ns ih =>
    obtain ⟨hn, hns⟩ := h
    rw [printAll, print, List.append_assoc]
    exact (ih hns (hends.tail (by simp [isStatement])) hafter inBlock).comment hn.self.1
  | statement n ns hstatement ih =>
    obtain ⟨hn, hns⟩ := h
    exact yields_statement (fun htail => ih hns htail hafter inBlock) hstatement hn.self.1 hends
      hafter

end Node

namespace Sheet

/-- A stylesheet whose text gives it back: its gaps, comments and semicolon flags are as reading
makes them, its texts are closed, and no list goes on behind a statement without a semicolon. -/
structure IsWritable (s : Sheet) : Prop where
  regular : s.IsRegular
  sound : Node.EveryIn Node.IsSound s.nodes
  inside : Node.EveryIn Node.CutsOffInside s.nodes
  cut : Node.CutsOff s.nodes s.ending

/-- A stylesheet that was put together in any way is read back from its text, with all its gaps
and flags. -/
theorem parse_print {s : Sheet} (h : s.IsWritable) : parse s.print = .ok s := by
  have hstands : Node.EveryIn (fun n => n.Stands ∧ n.HasFlag) s.nodes :=
    Node.everyIn_imp₂ (fun n hn hsound => ⟨hsound.stands hn, hn.flag⟩) h.regular.nodes h.sound
  have hwritten : Node.EveryIn (fun n => n.Stands ∧ n.HasFlag ∧ n.CutsOffInside) s.nodes :=
    Node.everyIn_imp₂ (fun n hn hcut => ⟨hn.1, hn.2, hcut⟩) hstands h.inside
  have hends := Node.endsAs_of_cutsOff h.regular.flag h.cut
  exact (Node.yields_printAll hwritten hends h.regular.after false).parse

/-- Strings, brackets and an address hold semicolons, braces and colons, a stray semicolon stands
in front of the block, and the last statement has none. -/
theorem parse_print_brackets :
    ∃ s : Sheet, s.IsWritable ∧ parse s.print = .ok s ∧ s.print = ("@import \"a;b\";" ++
      "c[d='\x7b;\x7d']:e \x7b/*f*/g: url(h;i) j(;:);;@k\x7bl ::m ;\x7d \x7d-n:o ").toList := by
  let inner : Node := .declaration ⟨[], ['l'], [' ', ':'], [':', 'm'], [' ']⟩
  let block : Node := .atBlock ⟨[';'], ['k'], [], [], []⟩ [inner] ⟨[], true⟩
  let decl : Node := .declaration ⟨[], ['g'], [':', ' '], "url(h;i) j(;:)".toList, []⟩
  let rule : Node := .rule ⟨[], "c[d='\x7b;\x7d']:e".toList, [' ']⟩
    [.comment ⟨[], ['f']⟩, decl, block] ⟨[' '], false⟩
  let last : Node := .declaration ⟨[], ['-', 'n'], [':'], ['o'], []⟩
  let first : AtHead := ⟨[], "import".toList, [' '], "\"a;b\"".toList, []⟩
  let s : Sheet := ⟨[.atStatement first {}, rule, last], ⟨[' '], false⟩⟩
  have hdecl : ∀ {prop g u value after : Text}, IsGap g → IsGap u → IsGap after →
      (Node.declaration ⟨[], prop, g ++ ':' :: u, value, after⟩).IsRegular := fun hg hu hafter =>
    ⟨⟨isLoose_nil, ⟨_, _, rfl, hg, hu⟩, hafter⟩, trivial, trivial⟩
  have hregular : s.IsRegular := by
    have hfirst : (Node.atStatement first {}).IsRegular :=
      ⟨⟨isLoose_nil, by decide, isGap_nil⟩, ⟨nofun, rfl⟩, trivial⟩
    have hinner : inner.IsRegular := hdecl (g := [' ']) (u := []) (by decide) isGap_nil (by decide)
    have hblock : block.IsRegular :=
      ⟨⟨by decide, isGap_nil, isGap_nil, isLoose_nil⟩, fun _ => rfl, fun _ => ⟨inner, rfl, rfl⟩⟩
    have hrule : rule.IsRegular := ⟨⟨isLoose_nil, by decide, by decide⟩, trivial, nofun⟩
    have hcomment : (Node.comment ⟨[], ['f']⟩).IsRegular := ⟨isLoose_nil, rfl, trivial⟩
    have hmiddle : decl.IsRegular := hdecl (g := []) (u := [' ']) isGap_nil (by decide) isGap_nil
    have hlast : last.IsRegular := hdecl (g := []) (u := []) isGap_nil isGap_nil isGap_nil
    have hnodes : Node.EveryIn Node.IsRegular s.nodes :=
      ⟨hfirst, ⟨hrule, hcomment, hmiddle, ⟨hblock, hinner, trivial⟩, trivial⟩, hlast, trivial⟩
    exact ⟨hnodes, by decide, nofun⟩
  have hsound : Node.EveryIn Node.IsSound s.nodes := by
    have hfirst : first.IsSound := ⟨by decide, .inr ⟨by decide +kernel, by decide⟩⟩
    have hrule : rule.IsSound := ⟨by decide +kernel, by decide, by decide⟩
    have hmiddle : decl.IsSound := ⟨by decide, by decide +kernel⟩
    have hblock : block.IsSound := ⟨by decide, .inl ⟨rfl, rfl⟩⟩
    have hinner : inner.IsSound := ⟨by decide, by decide +kernel⟩
    have hlast : last.IsSound := ⟨by decide, by decide +kernel⟩
    exact ⟨hfirst, ⟨hrule, trivial, hmiddle, ⟨hblock, hinner, trivial⟩, trivial⟩, hlast, trivial⟩
  have hcut : Node.CutsOff s.nodes s.ending := by
    intro _ n hn _
    obtain rfl := Option.some.inj (show some last = some n from hn)
    exact ⟨rfl, rfl, by decide⟩
  have hinside : Node.EveryIn Node.CutsOffInside s.nodes := by
    have hrule : rule.CutsOffInside := by
      intro _ n hn hstatement
      obtain rfl := Option.some.inj (show some block = some n from hn)
      cases hstatement
    exact ⟨trivial, ⟨hrule, trivial, trivial, ⟨nofun, trivial, trivial⟩, trivial⟩, trivial, trivial⟩
  exact ⟨s, ⟨hregular, hsound, hinside, hcut⟩, parse_print ⟨hregular, hsound, hinside, hcut⟩,
    by decide +kernel⟩

end Sheet

end HostSheet
