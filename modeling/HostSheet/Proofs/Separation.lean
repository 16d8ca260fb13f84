import Mathlib
import HostSheet.Proofs.Exposure
import HostSheet.Proofs.Splicing

set_option autoImplicit false

/-!
# When unwrapped declarations stay apart

As a text a host block is replaced by its contents as they stand, so its last declaration
may come without a semicolon and stand open in front of what follows.  As a tree it gets its
semicolon back.  If the contents are plain declarations (`Node.HasPlainBody`), the text has the
selectors and declarations of the tree if and only if no open declaration meets a node before a
semicolon (`outline_transformText_iff`).
-/

namespace HostSheet

open Text Syntax

/-! ## Open declarations between nodes -/

namespace Node

/-- Whether a node leaves no node behind: a host rule with an empty body. -/
def isVoid : Node → Bool
  | rule head [] _ => Selector.isHostOnly head.selector
  | _ => false

/-- The gap in front of what a node leaves behind.  A host rule leaves its declarations, or
the gap in its body. -/
def lead : Node → Text
  | rule head nodes ending =>
    if Selector.isHostOnly head.selector then
      head.before ++ (nodes.head?.map before).getD ending.after
    else head.before
  | n => n.before

/-- Whether a declaration stands open behind a node, if there may be one in front of it. -/
def leavesOpen (opened : Bool) : Node → Bool
  | rule head nodes ending =>
    Selector.isHostOnly head.selector &&
      if nodes.isEmpty then opened && !(head.before ++ ending.after).contains ';'
      else !ending.terminated
  | _ => false

mutual

/-- Whether no open declaration meets a node inside this one. -/
def apart : Node → Bool
  | rule head nodes _ => Selector.isHostOnly head.selector || apartIn false nodes
  | atBlock _ nodes _ => apartIn false nodes
  | _ => true

/-- Whether no open declaration meets a node in the list, if there may be one in front of
it.  At the end of the list an open declaration is complete. -/
def apartIn (opened : Bool) : List Node → Bool
  | [] => true
  | n :: ns =>
    (!opened || n.isVoid || n.lead.contains ';') && (apart n && apartIn (n.leavesOpen opened) ns)

end

/-- A host rule with nothing in its body but plain declarations.  The last declaration does
not change in front of what may end it if it has no semicolon. -/
def HasPlainBody : Node → Prop
  | rule head nodes ending =>
    Selector.isHostOnly head.selector = true →
      (∀ n ∈ nodes, ∃ d, n = .declaration d ∧ d.IsPlain) ∧
        (ending.terminated = false → ∀ d, nodes.getLast? = some (.declaration d) →
          Settled d.core)
  | _ => True

theorem apartIn_cons {n : Node} (h : n.isHost = false) (opened : Bool) (ns : List Node) :
    apartIn opened (n :: ns) =
      ((!opened || n.before.contains ';') && (n.apart && apartIn false ns)) := by
  cases n with
  | rule head nodes ending =>
    have hselector : Selector.isHostOnly head.selector = false := h
    cases nodes <;> simp [apartIn, isVoid, lead, leavesOpen, before, hselector]
  | _ => simp [apartIn, isVoid, lead, leavesOpen, before]

theorem apart_of_children?_eq_none {n : Node} (h : n.children? = none) : n.apart = true := by
  cases n with
  | rule head nodes ending => cases h
  | atBlock head nodes ending => cases h
  | _ => simp [apart]

theorem isHost_of_children?_eq_none {n : Node} (h : n.children? = none) : n.isHost = false := by
  cases n with
  | rule head nodes ending => cases h
  | _ => rfl

/-- A host rule that leaves no declaration open: it has none, or its last one has its
semicolon. -/
def IsTerminated : Node → Prop
  | rule head nodes ending =>
    Selector.isHostOnly head.selector = true → nodes ≠ [] → ending.terminated = true
  | _ => True

/-- Where all declarations have their semicolons, none is ever open. -/
theorem apartIn_of_isTerminated {ns : List Node} (h : EveryIn IsTerminated ns) :
    apartIn false ns = true := by
  have key : (∀ n : Node, Every IsTerminated n →
        n.apart = true ∧ n.leavesOpen false = false) ∧
      ∀ ns : List Node, EveryIn IsTerminated ns → apartIn false ns = true := by
    refine induction ?rule ?atBlock ?leaf ?nil ?cons
    case rule =>
      intro head nodes ending ih hall
      obtain ⟨hterminated, hinner⟩ := hall
      refine ⟨by rw [apart, ih hinner, Bool.or_true], ?_⟩
      rw [leavesOpen]
      cases hhost : Selector.isHostOnly head.selector with
      | false => rfl
      | true =>
        cases nodes with
        | nil => rfl
        | cons n nodes => simp [hterminated hhost (List.cons_ne_nil _ _)]
    case atBlock =>
      intro head nodes ending ih hall
      exact ⟨ih hall.2, rfl⟩
    case leaf =>
      intro n hn _
      refine ⟨apart_of_children?_eq_none hn, ?_⟩
      cases n with
      | rule head nodes ending => cases hn
      | _ => rfl
    case nil =>
      intro _
      rfl
    case cons =>
      intro n ns hn hns hall
      obtain ⟨hapart, hopen⟩ := hn hall.1
      rw [apartIn, hapart, hopen, hns hall.2]
      rfl
  exact key.2 ns h

/-- An item that is left of a node without a block is the item it had. -/
theorem sift_left?_of_children?_eq_none {n : Node} (h : n.children? = none) (o : Options) :
    sift (Label.left? o) [n] = sift Label.item? [n] := by
  rw [sift_singleton, sift_singleton, h]
  cases n with
  | rule head nodes ending => cases h
  | atBlock head nodes ending => cases h
  | _ => rfl

end Node

/-! ## The text node by node -/

/-- Unwrapping passes over a part of the text in which no `:host` starts. -/
theorem unwrap_append {t w : Text} (h : Clear t w) :
    HostBlock.block.replaceAll (t ++ w) = t ++ HostBlock.block.replaceAll w :=
  replaceAll_append_of_clear (fun _ => HostBlock.isPrefix_of_read) h

theorem unwrap_cons {c : Char} (hc : c ≠ ':') (w : Text) :
    HostBlock.block.replaceAll (c :: w) = c :: HostBlock.block.replaceAll w := by
  have hclear : Clear [c] w := by
    refine ⟨?_, trivial⟩
    rintro ⟨v, hv⟩
    exact hc (List.cons.inj hv).1.symm
  exact unwrap_append hclear

/-- Behind whatever stands open, the text `w` is read as what is left of the nodes, up to
the tokens `vs`, if and only if no open declaration meets a node. -/
def ReadsApart (ns : List Node) (w : Text) (vs : List Token) : Prop :=
  ∀ (opened : Bool) (q : Text) (left : List Item) (r : Reader), Pending opened q left →
    r.draft = none → Reader.Fares (Node.apartIn opened ns) r
      (Token.ofText (rewriteForms (q ++ w))) (left ++ Node.sift (Label.left? {}) ns) vs

/-- A node that is no host rule, in front of others. -/
theorem ReadsApart.cons {n : Node} {ns : List Node} {w w' : Text} {vs : List Token}
    (hhost : n.isHost = false) (hbefore : IsLoose n.before) (hw : Begins w)
    (hnode : ∀ r : Reader, r.draft = none →
      Reader.Fares n.apart r (Token.ofText (rewriteForms w)) (Node.sift (Label.left? {}) [n])
        (Token.ofText (rewriteForms w')))
    (h : ReadsApart ns w' vs) : ReadsApart (n :: ns) (n.before ++ w) vs := by
  intro opened q left r hpending hd
  rw [Node.apartIn_cons hhost, Node.sift_cons]
  refine (hpending.fares_gap hd hbefore hw).and fun r₁ hr₁ => ?_
  refine (hnode r₁ hr₁.draft).and fun r₂ hr₂ => ?_
  exact h false [] [] r₂ .none hr₂.draft

/-- A node without a block, in front of others. -/
theorem ReadsApart.cons_leaf {n : Node} {ns : List Node} {w w' : Text} {vs : List Token}
    (hn : n.children? = none) (hbefore : IsLoose n.before) (hw : Begins w)
    (hnode : ∀ r : Reader, r.draft = none → r.Reads (Token.ofText (rewriteForms w))
      (Node.sift Label.item? [n]) (Token.ofText (rewriteForms w')))
    (h : ReadsApart ns w' vs) : ReadsApart (n :: ns) (n.before ++ w) vs := by
  refine h.cons (Node.isHost_of_children?_eq_none hn) hbefore hw fun r hd => ?_
  rw [Node.apart_of_children?_eq_none hn, Node.sift_left?_of_children?_eq_none hn]
  exact (hnode r hd).fares

/-- The end of a list. -/
theorem ReadsApart.nil {gap w : Text} (hgap : IsLoose gap) (hw : w = [] ∨ ∃ v, w = '\x7d' :: v) :
    ReadsApart [] (gap ++ w) (Token.ofText (rewriteForms w)) := by
  intro opened q left r hpending hd
  rw [Node.sift_nil, List.append_nil, Node.apartIn]
  exact (hpending.reads_end hd hgap hw).fares

/-- What stands behind a list of nodes still does after unwrapping. -/
theorem unwrap_end {inBlock : Bool} {zs : List Token}
    (h : inBlock = false ∧ zs = [] ∨ inBlock = true ∧ ∃ vs, zs = .closer .curly :: vs) :
    HostBlock.block.replaceAll (Token.textOf zs) = [] ∨
      ∃ v, HostBlock.block.replaceAll (Token.textOf zs) = '\x7d' :: v := by
  rcases h with ⟨_, rfl⟩ | ⟨_, vs, rfl⟩
  · exact .inl (Pattern.replaceAll_nil _)
  · exact .inr ⟨_, unwrap_cons (by decide) _⟩

/-- A statement without a semicolon at the end of a list. -/
theorem ReadsApart.last {us : List Token} {d : Draft} {before gap : Text} {n : Node}
    {inBlock : Bool} {zs : List Token} (hs : Statement us d) (hn : d.node before [] = .ok n)
    (hbefore : IsLoose before) (hgap : IsGap gap)
    (hb : d.brackets = [] ∨ inBlock = false ∧ gap = [])
    (hend : inBlock = false ∧ zs = [] ∨ inBlock = true ∧ ∃ vs, zs = .closer .curly :: vs)
    (hclear : Clear (Token.textOf us) (gap ++ Token.textOf zs))
    (hparted : Token.Parted us (gap ++ Token.textOf zs)) :
    ReadsApart [n] (before ++ (Token.textOf us ++
        (gap ++ HostBlock.block.replaceAll (Token.textOf zs))))
      (Token.ofText (rewriteForms (HostBlock.block.replaceAll (Token.textOf zs)))) := by
  rw [← Draft.before_of_node hn] at hbefore ⊢
  have hnil : ReadsApart [] (HostBlock.block.replaceAll (Token.textOf zs)) _ :=
    .nil isLoose_nil (unwrap_end hend)
  refine hnil.cons_leaf (Draft.children?_of_node hn) hbefore (hs.begins hparted _) fun r hd => ?_
  rcases hend with ⟨_, rfl⟩ | ⟨hin, vs, rfl⟩
  · rw [Token.textOf_nil, List.append_nil] at hparted
    rw [Token.textOf_nil, Pattern.replaceAll_nil, List.append_nil,
      rewriteForms_of_clear (t := []) trivial, Token.ofText]
    exact hs.reads_rewriteForms_nil hgap (hb.imp_right And.right) hn hclear.nil_right hparted hd
  · have hopen : d.brackets = [] := hb.resolve_right fun h => by rw [hin] at h; cases h.1
    have hcurly : Token.textOf (.closer .curly :: vs) = '\x7d' :: Token.textOf vs := rfl
    rw [hcurly] at hparted ⊢
    rw [unwrap_cons (by decide)]
    exact hs.reads_rewriteForms_curly hopen hgap hn hclear.nil_right hparted hd _

/-- A node with a block that is no host rule, in front of others. -/
theorem ReadsApart.cons_block {us : List Token} {d : Draft} {before gap w w' : Text}
    {head : BlockHead} {nodes ns : List Node} {ending : Ending} {vs : List Token}
    (hs : Statement us d) (hb : d.brackets = []) (hgap : IsGap gap)
    (hh : (d.withGap gap).blockHead? before = some head) (hbefore : IsLoose before)
    (hhost : (head.node nodes ending).isHost = false) (hclear : Clear (Token.textOf us) [])
    {v : Text} (hparted : Token.Parted us (gap ++ '\x7b' :: v))
    (hinner : ReadsApart nodes w (.closer .curly :: Token.ofText (rewriteForms w')))
    (h : ReadsApart ns w' vs) :
    ReadsApart (head.node nodes ending :: ns)
      (before ++ (Token.textOf us ++ (gap ++ '\x7b' :: w))) vs := by
  have hread : ∀ t ∈ us, t.IsRead := fun t ht => hparted.isRead ht
  obtain ⟨hfront, hapart, hitems⟩ : (head.node nodes ending).before = before ∧
      (head.node nodes ending).apart = Node.apartIn false nodes ∧
      Node.sift (Label.left? {}) [head.node nodes ending] =
        head.outline ++ Node.sift (Label.left? {}) nodes := by
    rw [Node.sift_singleton]
    rcases hs.blockHead_cases hread hh with rfl | ⟨at₀, rfl, hfront, _⟩
    · have hselector : Selector.isHostOnly (Token.textOf us) = false := hhost
      have hstays : TreeMode.rewriteRuleSelector {} (Token.textOf us) = Token.textOf us := by
        rw [TreeMode.rewriteRuleSelector, mentionsHost_of_clear hclear]
        rfl
      refine ⟨rfl, ?_, ?_⟩
      · rw [BlockHead.node, Node.apart, hselector, Bool.false_or]
      · simp [BlockHead.node, Node.label, Label.left?, Label.isHost, hselector, Label.rewrite,
          hstays, Label.item?, Node.children?, BlockHead.outline]
    · refine ⟨hfront, ?_, rfl⟩
      rw [BlockHead.node, Node.apart]
  rw [← hfront]
  refine h.cons hhost (by rwa [hfront]) (hs.begins hparted _) fun r hd => ?_
  rw [hapart, hitems]
  exact hs.fares_rewriteForms hb hgap hh hclear hparted hd fun r' hr' =>
    hinner false [] [] r' .none hr'

/-- What unwrapping makes of a host block. -/
theorem unwrap_block {gap body : Text} (hgap : IsGap gap) (hbody : '\x7d' ∉ body) (w : Text) :
    HostBlock.block.replaceAll (hostSelector ++ (gap ++ '\x7b' :: (body ++ '\x7d' :: w))) =
      HostBlock.contents body ++ HostBlock.block.replaceAll w := by
  refine Pattern.replaceAll_of_read (HostBlock.readBlock_eq_some_iff.2 ⟨gap, body, ?_, ?_, hbody,
    rfl⟩)
  · simp [hostSelector]
  · exact fun c hc => Node.isSpace_of_isBlank (hgap c hc)

theorem sift_cons_host {head : RuleHead} (hhost : Selector.isHostOnly head.selector = true)
    (nodes : List Node) (ending : Ending) (ns : List Node) :
    Node.sift (Label.left? {}) (.rule head nodes ending :: ns) =
      Node.sift (Label.left? {}) nodes ++ Node.sift (Label.left? {}) ns := by
  have hnone : Label.left? {} (Node.rule head nodes ending).label = none := if_pos hhost
  rw [Node.sift_cons, Node.sift_singleton, hnone]
  rfl

/-- A host rule without declarations, in front of other nodes.  It leaves a gap, which ends
what stands open or goes with it. -/
theorem ReadsApart.cons_void {head : RuleHead} {ns : List Node} {gap w : Text} {vs : List Token}
    (hhost : Selector.isHostOnly head.selector = true) (hbefore : IsLoose head.before)
    (hgap : IsLoose gap) (h : ReadsApart ns w vs) :
    ReadsApart (.rule head [] ⟨gap, false⟩ :: ns)
      (head.before ++ (HostBlock.contents gap ++ w)) vs := by
  intro opened q left r hpending hd
  have hloose := hbefore.append (HostBlock.isLoose_contents hgap)
  have hmem : ';' ∈ head.before ++ HostBlock.contents gap ↔ ';' ∈ head.before ++ gap := by
    rw [List.mem_append, List.mem_append, HostBlock.mem_contents_iff (by decide)]
  have hapart : Node.apartIn opened (.rule head [] ⟨gap, false⟩ :: ns) =
      Node.apartIn (opened && !(head.before ++ gap).contains ';') ns := by
    simp [Node.apartIn, Node.isVoid, Node.apart, Node.leavesOpen, hhost]
  rw [hapart, sift_cons_host hhost, Node.sift_nil, List.nil_append, ← List.append_assoc head.before]
  cases hstays : opened && !(head.before ++ gap).contains ';' with
  | false =>
    have hends : opened = true → ';' ∈ head.before ++ HostBlock.contents gap := by
      intro hopen
      rw [hopen, Bool.true_and, Bool.not_eq_false', List.contains_iff_mem] at hstays
      exact hmem.2 hstays
    refine (hpending.reads_gap hd hloose hends w).trans_fares fun r₁ hr₁ => ?_
    exact h false [] [] r₁ .none hr₁.draft
  | true =>
    rw [Bool.and_eq_true, Bool.not_eq_true'] at hstays
    have hnot : ';' ∉ head.before ++ HostBlock.contents gap := by
      rw [hmem, ← List.contains_iff_mem, hstays.2]
      exact Bool.false_ne_true
    rw [← List.append_assoc]
    exact h true _ left r (hpending.append hloose hstays.1 hnot) hd

/-- A host rule, in front of other nodes. -/
theorem ReadsApart.cons_host {head : RuleHead} {nodes ns : List Node} {ending : Ending}
    {inner ts : List Token} {v w : Text} {vs : List Token}
    (hhost : Selector.isHostOnly head.selector = true)
    (hplain : (Node.rule head nodes ending).HasPlainBody)
    (hinner : Spells true false inner nodes ending)
    (hparted : Token.Parted (inner ++ .closer .curly :: ts) [])
    (hclear : Clear (Token.textOf inner) v) (hbefore : IsLoose head.before)
    (h : ReadsApart ns w vs) :
    '\x7d' ∉ Token.textOf inner ∧ ReadsApart (.rule head nodes ending :: ns)
      (head.before ++ (HostBlock.contents (Token.textOf inner) ++ w)) vs := by
  obtain ⟨hdeclarations, hlast⟩ := hplain hhost
  cases nodes with
  | nil =>
    cases hinner with
    | @nil inBlock terminated gap hgap =>
      rw [Token.textOf_ofGap]
      exact ⟨not_mem_of_isLoose hgap, h.cons_void hhost hbefore hgap⟩
  | cons n nodes =>
    obtain ⟨hunclosed, k, y, hsplice⟩ := hinner.exists_splice rfl (.inr (List.cons_ne_nil _ _))
      hdeclarations hlast hparted hclear true
    refine ⟨hunclosed, ?_⟩
    intro opened q left r hpending hd
    obtain ⟨hmem, hbegins⟩ := hsplice.first n nodes rfl
    obtain ⟨items, q', left', hleft, hpending', hreads⟩ := hsplice.reads
    have hapart : Node.apartIn opened (.rule head (n :: nodes) ending :: ns) =
        ((!opened || (head.before ++ k).contains ';') && Node.apartIn (!ending.terminated) ns) := by
      have hlead : decide (';' ∈ k) = decide (';' ∈ n.before) := decide_eq_decide.2 hmem
      simp [Node.apartIn, Node.isVoid, Node.lead, Node.apart, Node.leavesOpen, hhost, hlead]
    have hsplit : head.before ++ (HostBlock.contents (Token.textOf inner) ++ w) =
        head.before ++ k ++ (y ++ w) := by
      rw [HostBlock.contents_eq, hsplice.eq]
      simp only [List.append_assoc]
    rw [hapart, sift_cons_host hhost, hsplit, ← hleft, List.append_assoc items]
    refine (hpending.fares_gap hd (hbefore.append hsplice.loose) (Begins.append hbegins w)).and
      fun r₁ hr₁ => ?_
    refine (hreads w r₁ hr₁.draft).trans_fares fun r₂ hr₂ => ?_
    exact h _ q' left' r₂ hpending' hr₂.draft

/-- A closed comment is passed over. -/
theorem Reader.reads_rewriteForms_comment {r : Reader} (hd : r.draft = none) {body v : Text}
    (hparted : Token.Parted [.comment body true] v) {u : Text}
    (hclear : Clear (Token.comment body true).text u) (w : Text) :
    r.Reads (Token.ofText (rewriteForms ((Token.comment body true).text ++ w))) []
      (Token.ofText (rewriteForms w)) := by
  have hend : (Token.comment body true).text = '/' :: '*' :: body ++ ['*'] ++ ['/'] := by
    simp [Token.text]
  have hsplit : (Token.comment body true).text ++ w =
      '/' :: '*' :: body ++ ['*'] ++ '/' :: w := by
    simp [Token.text]
  have hrewrite : rewriteForms ((Token.comment body true).text ++ w) =
      (Token.comment body true).text ++ rewriteForms w := by
    rw [hend] at hclear
    rw [hsplit, rewriteForms_append_cons (clear_append_iff.1 hclear).1.nil_right (by decide)]
    simp [Token.text]
  rw [hrewrite, Token.ofText_comment hparted]
  exact Reader.reads_comment hd body _

/-! ## The tokens list by list -/

/-- In front of the tokens `zs`, and with its host blocks unwrapped, the text of `ts` is read as
what is left of the nodes if and only if no open declaration meets a node. -/
def UnwrapsApart (ts : List Token) (ns : List Node) (zs : List Token) : Prop :=
  ReadsApart ns (HostBlock.block.replaceAll (Token.textOf (ts ++ zs)))
    (Token.ofText (rewriteForms (HostBlock.block.replaceAll (Token.textOf zs))))

namespace UnwrapsApart

variable {ts zs us inner : List Token} {ns nodes : List Node} {before gap : Text} {d : Draft}
  {ending : Ending}

/-- A comment in front of other nodes. -/
theorem comment (h : UnwrapsApart ts ns zs) {body v : Text} (hbefore : IsLoose before)
    (hparted : Token.Parted [.comment body true] v)
    (hclear : Clear (Token.comment body true).text (Token.textOf (ts ++ zs))) :
    UnwrapsApart (Token.ofGap before ++ .comment body true :: ts) (.comment ⟨before, body⟩ :: ns)
      zs := by
  rw [UnwrapsApart, List.append_assoc, List.cons_append, Token.textOf_append, Token.textOf_ofGap,
    Token.textOf_cons, unwrap_append (hbefore.clear _), unwrap_append hclear]
  refine ReadsApart.cons_leaf (n := .comment ⟨before, body⟩) rfl hbefore ?_ (fun r hd => ?_) h
  · exact ⟨'/', _, rfl, rfl, by decide, by decide⟩
  · exact Reader.reads_rewriteForms_comment hd hparted hclear _

/-- A statement with its semicolon, in front of other nodes. -/
theorem statement (h : UnwrapsApart ts ns zs) {n : Node} (hbefore : IsLoose before)
    (hs : Statement us d) (hb : d.brackets = []) (hgap : IsGap gap)
    (hn : d.node before gap = .ok n)
    (hparted : Token.Parted us (gap ++ ';' :: Token.textOf (ts ++ zs)))
    (hclear : Clear (Token.textOf us) (gap ++ ';' :: Token.textOf (ts ++ zs))) :
    UnwrapsApart (Token.ofGap before ++ us ++ Token.ofGap gap ++ .semicolon :: ts) (n :: ns)
      zs := by
  rw [UnwrapsApart, List.append_assoc, List.cons_append, Token.textOf_between, Token.textOf_cons,
    Token.text, List.singleton_append, unwrap_append (hbefore.clear _), unwrap_append hclear,
    unwrap_append (hgap.isLoose.clear _), unwrap_cons (by decide), ← Draft.before_of_node hn]
  rw [← Draft.before_of_node hn] at hbefore
  refine ReadsApart.cons_leaf (Draft.children?_of_node hn) hbefore (hs.begins hparted _)
    (fun r hd => ?_) h
  exact hs.reads_rewriteForms hb hgap hn hclear.nil_right hparted hd _

/-- A block that is no host rule, in front of other nodes. -/
theorem block (h : UnwrapsApart ts ns zs) {head : BlockHead} (hbefore : IsLoose before)
    (hs : Statement us d) (hb : d.brackets = []) (hgap : IsGap gap)
    (hh : (d.withGap gap).blockHead? before = some head)
    (hhost : (head.node nodes ending).isHost = false)
    (hinner : UnwrapsApart inner nodes (.closer .curly :: (ts ++ zs)))
    (hparted : Token.Parted us
      (gap ++ '\x7b' :: Token.textOf (inner ++ .closer .curly :: (ts ++ zs))))
    (hclear : Clear (Token.textOf us)
      (gap ++ '\x7b' :: Token.textOf (inner ++ .closer .curly :: (ts ++ zs)))) :
    UnwrapsApart (Token.ofGap before ++ us ++ Token.ofGap gap ++ .opener [] .curly ::
      (inner ++ .closer .curly :: ts)) (head.node nodes ending :: ns) zs := by
  have hcurly : Token.textOf (.closer .curly :: (ts ++ zs)) =
      '\x7d' :: Token.textOf (ts ++ zs) := rfl
  rw [UnwrapsApart, hcurly, unwrap_cons (by decide), rewriteForms_cons (by decide),
    Token.ofText_closer_curly] at hinner
  rw [UnwrapsApart, List.append_assoc, List.cons_append, List.append_assoc inner,
    List.cons_append, Token.textOf_between, Token.textOf_cons, Token.text, List.nil_append,
    Bracket.opening, List.singleton_append, unwrap_append (hbefore.clear _),
    unwrap_append hclear, unwrap_append (hgap.isLoose.clear _), unwrap_cons (by decide)]
  exact .cons_block hs hb hgap hh hbefore hhost hclear.nil_right hparted hinner h

/-- A host rule in front of other nodes. -/
theorem host (h : UnwrapsApart ts ns zs) (hbefore : IsLoose before) (hgap : IsGap gap)
    (hus : Token.textOf us = hostSelector) (hinner : Spells true false inner nodes ending)
    (hplain : (Node.rule ⟨before, Token.textOf us, gap⟩ nodes ending).HasPlainBody)
    (hparted : Token.Parted (inner ++ .closer .curly :: (ts ++ zs)) [])
    {v : Text} (hclear : Clear (Token.textOf inner) v) :
    UnwrapsApart (Token.ofGap before ++ us ++ Token.ofGap gap ++ .opener [] .curly ::
      (inner ++ .closer .curly :: ts)) (.rule ⟨before, Token.textOf us, gap⟩ nodes ending :: ns)
      zs := by
  have hhost : Selector.isHostOnly (Token.textOf us) = true := by
    rw [hus]
    rfl
  obtain ⟨hunclosed, hread⟩ := ReadsApart.cons_host hhost hplain hinner hparted hclear hbefore h
  have hside : Token.textOf (inner ++ .closer .curly :: (ts ++ zs)) =
      Token.textOf inner ++ '\x7d' :: Token.textOf (ts ++ zs) := by
    simp [Token.text, Bracket.closing]
  rw [UnwrapsApart, List.append_assoc, List.cons_append, List.append_assoc inner,
    List.cons_append, Token.textOf_between, Token.textOf_cons, Token.text, List.nil_append,
    Bracket.opening, List.singleton_append, unwrap_append (hbefore.clear _), hside, hus,
    unwrap_block hgap hunclosed]
  rw [hus] at hread
  exact hread

end UnwrapsApart

namespace Spells

/-- A text in which the host blocks are unwrapped is read as its nodes if and only if no
open declaration meets a node. -/
theorem unwrapsApart {inBlock terminated : Bool} {ts : List Token} {ns : List Node} {e : Ending}
    (h : Spells inBlock terminated ts ns e) (hplain : Node.EveryIn Node.HasPlainBody ns)
    {zs : List Token} {rest : List Piece} (hrest : Piece.textOf rest = Token.textOf zs)
    (hend : inBlock = false ∧ zs = [] ∨ inBlock = true ∧ ∃ vs, zs = .closer .curly :: vs)
    (hparted : Token.Parted (ts ++ zs) [])
    (hexposed : Piece.Exposed (Node.piecesIn e.terminated ns ++ .plain e.after :: rest)) :
    UnwrapsApart ts ns zs := by
  induction h generalizing zs rest with
  | @nil inBlock terminated gap hgap =>
    rw [UnwrapsApart, Token.textOf_append, Token.textOf_ofGap, unwrap_append (hgap.clear _)]
    exact .nil hgap (unwrap_end hend)
  | @last inBlock terminated before gap us d n hbefore hs hn hgap hb =>
    obtain ⟨hus, _⟩ := hparted.between
    rw [List.append_nil] at hus
    rw [Node.piecesIn, List.append_assoc] at hexposed
    obtain ⟨hclear, _⟩ := hs.exposed_node (fun t ht => hus.isRead ht) hn hexposed
    have hclear : Clear (Token.textOf us) (gap ++ Token.textOf zs) := by
      simpa [Node.terminator, Node.piecesIn, Piece.text, hrest] using hclear
    rw [UnwrapsApart, Token.textOf_between, unwrap_append (hbefore.clear _),
      unwrap_append hclear, unwrap_append (hgap.isLoose.clear _)]
    exact .last hs hn hbefore hgap hb hend hclear hus
  | @comment inBlock terminated before body ts ns e hbefore h ih =>
    rw [List.append_assoc, List.cons_append, Token.parted_append_iff] at hparted
    have hboth : Token.Parted ([.comment body true] ++ (ts ++ zs)) [] := hparted.2
    obtain ⟨hbody, hts⟩ := Token.parted_append_iff.1 hboth
    have hread : ∀ t ∈ ts, t.IsRead := fun t ht => hts.isRead (List.mem_append_left _ ht)
    rw [Node.piecesIn, List.append_assoc] at hexposed
    obtain ⟨hclear, hrow⟩ := Comment.exposed hexposed
    rw [h.textOf_pieces_append hread hrest] at hclear
    exact (ih hplain.2 hrest hend hts hrow).comment hbefore hbody hclear
  | @statement inBlock terminated before gap us ts d n ns e hbefore hs hb hgap hn h ih =>
    rw [List.append_assoc, List.cons_append] at hparted
    obtain ⟨hus, _⟩ := hparted.between
    rw [List.append_nil, Token.textOf_cons, Token.text, List.singleton_append] at hus
    have hts : Token.Parted (ts ++ zs) [] := hparted.tail
    have hread : ∀ t ∈ ts, t.IsRead := fun t ht => hts.isRead (List.mem_append_left _ ht)
    rw [Node.piecesIn, h.separated rfl, List.append_assoc] at hexposed
    obtain ⟨hclear, hrow⟩ := hs.exposed_node (fun t ht => hus.isRead ht) hn hexposed
    rw [h.textOf_pieces_append hread hrest, Node.terminator, if_pos rfl,
      List.singleton_append] at hclear
    exact (ih hplain.2 hrest hend hts hrow).statement hbefore hs hb hgap hn hus hclear
  | @block inBlock terminated before gap us inner ts d head nodes ns ending e hbefore hs hb hgap
      hh hinner h ihinner ih =>
    rw [List.append_assoc, List.cons_append, List.append_assoc inner, List.cons_append] at hparted
    obtain ⟨hus, _⟩ := hparted.between
    rw [List.append_nil, Token.textOf_cons, Token.text, List.nil_append, Bracket.opening,
      List.singleton_append] at hus
    have hinside : Token.Parted (inner ++ .closer .curly :: (ts ++ zs)) [] := hparted.tail
    have hts : Token.Parted (ts ++ zs) [] := hinside.tail
    have hread : ∀ t ∈ ts, t.IsRead := fun t ht => hts.isRead (List.mem_append_left _ ht)
    have hreadInner : ∀ t ∈ inner, t.IsRead := fun t ht =>
      hinside.isRead (List.mem_append_left _ ht)
    have hrest' : Piece.textOf (.plain ['\x7d'] ::
        (Node.piecesIn e.terminated ns ++ .plain e.after :: rest)) =
        Token.textOf (.closer .curly :: (ts ++ zs)) := by
      rw [Piece.textOf_cons, h.textOf_pieces_append hread hrest]
      rfl
    rw [Node.piecesIn, List.append_assoc] at hexposed
    obtain ⟨hbody, hselector, hclear⟩ := hs.exposed_block (fun t ht => hus.isRead ht) hh hexposed
    rw [hinner.textOf_pieces_append hreadInner hrest'] at hclear
    have hnext := ih hplain.2 hrest hend hts hbody.right_of_append.2.2
    cases hhost : (head.node nodes ending).isHost with
    | true =>
      rcases hs.blockHead_cases (fun t ht => hus.isRead ht) hh with rfl | ⟨at₀, rfl, _⟩
      swap
      · cases hhost
      have hleaves : ∀ n ∈ nodes, n.children? = none := by
        intro n hn
        obtain ⟨decl, rfl, _⟩ := (hplain.1.1 hhost).1 n hn
        rfl
      have hclearInner := hbody.clear_leaves hleaves
      rw [hinner.textOf_pieces hreadInner] at hclearInner
      exact hnext.host hbefore hgap (hselector hhost) hinner hplain.1.1 hinside hclearInner
    | false =>
      have hinnerPlain : Node.EveryIn Node.HasPlainBody nodes := by
        have := hplain.1
        cases head <;> exact this.2
      exact hnext.block hbefore hs hb hgap hh hhost
        (ihinner hinnerPlain hrest' (.inr ⟨rfl, _, rfl⟩) hinside hbody) hus (hclear hhost)

end Spells

/-! ## Whole stylesheets -/

namespace Sheet

/-- A stylesheet is read from the start. -/
theorem outline_eq_iff_of_fares {good : Bool} {css : Text} {items : List Item}
    (h : Reader.Fares good {} (Token.ofText css) items []) :
    (∃ s, parse css = .ok s ∧ s.outline = items) ↔ good = true := by
  have hstart : Reader.outline {} = [] := rfl
  rw [exists_outline_iff]
  unfold Reader.Fares at h
  cases good with
  | true =>
    obtain ⟨r, hr, houtcome⟩ := h
    refine iff_of_true ?_ rfl
    rw [houtcome, Reader.outcome_eq_some_iff]
    refine ⟨r, _, Reader.run_nil r, Reader.finish_of_settles (.none hr.draft) hr.blocks, ?_⟩
    have houtline := hr.outline
    rw [hstart, List.nil_append] at houtline
    rw [← houtline, Reader.outline, hr.blocks]
    rfl
  | false =>
    refine iff_of_false ?_ Bool.false_ne_true
    have hmore := h []
    rwa [hstart, List.nil_append, List.append_nil] at hmore

theorem transformText_default (css : Text) :
    transformText {} css = rewriteForms (HostBlock.block.replaceAll css) := rfl

/-- The rewritten text is read as the outline of the rewritten tree if and only if no open
declaration meets a node. -/
theorem fares_transformText {css : Text} {s : Sheet} (hparse : parse css = .ok s)
    (hhost : ∀ i, i < css.length → hostSelector <+: css.drop i →
      (i, i + hostSelector.length) ∈ s.selectorSpans)
    (hplain : Node.EveryIn Node.HasPlainBody s.nodes) :
    Reader.Fares (Node.apartIn false s.nodes) {} (Token.ofText (transformText {} css))
      (s.transform {}).outline [] := by
  have hprint : Piece.textOf s.pieces = css := by
    rw [textOf_pieces, print_of_parse hparse]
  have hexposed : Piece.Exposed s.pieces := by
    refine Piece.exposed_of_spans (i := 0) fun i hi hprefix => ?_
    rw [hprint] at hi hprefix
    rw [Nat.zero_add]
    exact hhost i hi hprefix
  have hparted : Token.Parted (Token.ofText css ++ []) [] := by
    rw [List.append_nil]
    exact Token.parted_ofText css
  have hrest : Piece.textOf [] = Token.textOf [] := rfl
  have hread := (spells_of_parse hparse).unwrapsApart hplain hrest (.inl ⟨rfl, rfl⟩) hparted
    hexposed false [] [] {} .none rfl
  rw [List.append_nil, Token.textOf_ofText, List.nil_append, List.nil_append, Token.textOf_nil,
    Text.Pattern.replaceAll_nil, rewriteForms_of_clear (t := []) trivial, Token.ofText] at hread
  rw [transformText_default, outline_transform]
  exact hread

/-- Let `:host` occur as whole selectors only, and in front of plain declarations.  Then the
rewritten text has the selectors and declarations of the rewritten tree if and only if no
declaration that is left without a semicolon meets a node. -/
theorem outline_transformText_iff {css : Text} {s : Sheet} (hparse : parse css = .ok s)
    (hhost : ∀ i, i < css.length → hostSelector <+: css.drop i →
      (i, i + hostSelector.length) ∈ s.selectorSpans)
    (hplain : Node.EveryIn Node.HasPlainBody s.nodes) :
    (∃ t, parse (transformText {} css) = .ok t ∧ t.outline = (s.transform {}).outline) ↔
      Node.apartIn false s.nodes = true :=
  outline_eq_iff_of_fares (fares_transformText hparse hhost hplain)

/-- Two host blocks, each with an open declaration at its end.  One stands at the end of a list,
and there is a semicolon behind the other. -/
theorem outline_transformText_iff_stray :
    ∃ s, parse "a\x7b:host\x7bb:c;d:e\x7d\x7d:host\x7bf:g\x7d;h\x7b\x7d".toList = .ok s ∧
      Node.EveryIn Node.HasPlainBody s.nodes ∧ Node.apartIn false s.nodes = true ∧
        ∃ t, parse (transformText {}
            "a\x7b:host\x7bb:c;d:e\x7d\x7d:host\x7bf:g\x7d;h\x7b\x7d".toList) = .ok t ∧
          t.outline = (s.transform {}).outline := by
  have hparse : parse "a\x7b:host\x7bb:c;d:e\x7d\x7d:host\x7bf:g\x7d;h\x7b\x7d".toList =
      .ok ⟨[.rule ⟨[], ['a'], []⟩ [.rule ⟨[], hostSelector, []⟩
            [.declaration ⟨[], ['b'], [':'], ['c'], []⟩,
              .declaration ⟨[], ['d'], [':'], ['e'], []⟩] {}] {},
          .rule ⟨[], hostSelector, []⟩ [.declaration ⟨[], ['f'], [':'], ['g'], []⟩] {},
          .rule ⟨[';'], ['h'], []⟩ [] {}], {}⟩ :=
    parse_of_toOption (by decide +kernel)
  have hplain : Node.EveryIn Node.HasPlainBody
      [.rule ⟨[], ['a'], []⟩ [.rule ⟨[], hostSelector, []⟩
            [.declaration ⟨[], ['b'], [':'], ['c'], []⟩,
              .declaration ⟨[], ['d'], [':'], ['e'], []⟩] {}] {},
          .rule ⟨[], hostSelector, []⟩ [.declaration ⟨[], ['f'], [':'], ['g'], []⟩] {},
          .rule ⟨[';'], ['h'], []⟩ [] {}] := by
    have hb : Declaration.IsPlain ⟨[], ['b'], [':'], ['c'], []⟩ := ⟨by decide, rfl, rfl⟩
    have hd : Declaration.IsPlain ⟨[], ['d'], [':'], ['e'], []⟩ := ⟨by decide, rfl, rfl⟩
    have hf : Declaration.IsPlain ⟨[], ['f'], [':'], ['g'], []⟩ := ⟨by decide, rfl, rfl⟩
    have hde : Settled (Declaration.core ⟨[], ['d'], [':'], ['e'], []⟩) := by decide +kernel
    have hfg : Settled (Declaration.core ⟨[], ['f'], [':'], ['g'], []⟩) := by decide +kernel
    have ha : Selector.isHostOnly ['a'] = false := rfl
    have hh : Selector.isHostOnly ['h'] = false := rfl
    simp [Node.EveryIn, Node.Every, Node.HasPlainBody, hb, hd, hf, hde, hfg, ha, hh]
  refine ⟨_, hparse, hplain, by decide +kernel, ?_⟩
  exact (outline_transformText_iff hparse (by decide +kernel) hplain).2 (by decide +kernel)

/-- If every host block ends in a semicolon, nothing is left open. -/
theorem outline_transformText_of_isTerminated {css : Text} {s : Sheet}
    (hparse : parse css = .ok s)
    (hhost : ∀ i, i < css.length → hostSelector <+: css.drop i →
      (i, i + hostSelector.length) ∈ s.selectorSpans)
    (hplain : Node.EveryIn Node.HasPlainBody s.nodes)
    (hterminated : Node.EveryIn Node.IsTerminated s.nodes) :
    ∃ t, parse (transformText {} css) = .ok t ∧ t.outline = (s.transform {}).outline :=
  (outline_eq_iff_of_fares (fares_transformText hparse hhost hplain)).2
    (Node.apartIn_of_isTerminated hterminated)

/-- Without its semicolon the last declaration of a host block is no declaration any more: it
is taken for the start of the selector behind the block. -/
theorem transformText_joins_declaration :
    (parse ":host\x7ba: b\x7d c \x7bd: e\x7d".toList).toOption.map
        (fun s => (s.transform {}).outline) =
      some [.declaration ['a'] ['b'], .selector ['c'], .declaration ['d'] ['e']] ∧
    (parse (transformText {} ":host\x7ba: b\x7d c \x7bd: e\x7d".toList)).toOption.map outline =
      some [.selector "a: b c".toList, .declaration ['d'] ['e']] := by
  decide +kernel

end Sheet

end HostSheet
