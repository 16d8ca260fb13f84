import Mathlib
import HostSheet.Proofs.Waiting

set_option autoImplicit false

/-!
# The declarations of a host block in its place

The contents of a host block hold the same declarations as the block, with fewer blanks
between and inside them (`Spells.exists_splice`).  All of them are read as they were but the
last: if it had no semicolon in the block, it stands open behind the contents.
-/

namespace HostSheet

open Text Syntax

/-! ## Declarations that stay -/

namespace Declaration

/-- The characters of a declaration, without the gaps around it. -/
def core (d : Declaration) : Text := d.prop ++ d.between ++ d.value

/-- A declaration that unwrapping keeps: no bracket in it looks like the end of its block,
and there is no white space that would be dropped, except behind the colon. -/
structure IsPlain (d : Declaration) : Prop where
  unclosed : '\x7d' ∉ d.core
  head : HostBlock.contents (d.prop ++ dropEnd isBlank d.between) =
    d.prop ++ dropEnd isBlank d.between
  value : HostBlock.contents d.value = d.value

end Declaration

/-- A text whose tokens do not change in front of a blank, a semicolon or a brace.  No escape
at its end goes on with what follows. -/
def Settled (x : Text) : Prop :=
  ∀ e, isSeam e = true → Token.ofText (x ++ [e]) = Token.ofText x ++ Token.ofText [e]

theorem settled_iff {x : Text} :
    Settled x ↔ ([' ', '\t', '\n', '\x0C', '\r', ';', '\x7b', '\x7d'].all fun e =>
      Token.ofText (x ++ [e]) == Token.ofText x ++ Token.ofText [e]) = true := by
  have hmem : ∀ e, isSeam e = true ↔
      e ∈ [' ', '\t', '\n', '\x0C', '\r', ';', '\x7b', '\x7d'] := by
    intro e
    simp [isSeam, isBlank, or_assoc]
  unfold Settled
  simp only [hmem, List.all_eq_true, beq_iff_eq]

instance (x : Text) : Decidable (Settled x) := decidable_of_iff _ settled_iff.symm

namespace Statement

/-- A plain declaration as it stands in the contents of its block. -/
structure Flushes (us : List Token) (us' : List Token) (d' : Draft) (decl : Declaration) :
    Prop where
  statement : Statement us' d'
  brackets : d'.brackets = []
  node : ∃ between, d'.node [] [] =
    .ok (.declaration ⟨[], decl.prop, between, decl.value, []⟩)
  text : ∃ u w, Token.textOf us' = decl.prop ++ u ++ ':' :: w ++ decl.value ∧ IsGap u ∧
    IsGap w ∧ (decl.value = [] → w = []) ∧ ∀ c, decl.value.head? = some c → isBlank c = false
  clear : Clear (Token.textOf us') []
  parted : ∀ rest, Token.Parted us rest → Token.Parted us' rest
  flush : ∀ b g r, HostBlock.flushLeft b (g ++ (Token.textOf us ++ r)) =
    HostBlock.flushLeft b g ++ (Token.textOf us' ++ HostBlock.flushLeft false r)

theorem textOf_eq_core {us : List Token} {d : Draft} {before after : Text} {decl : Declaration}
    (hs : Statement us d) (hread : ∀ t ∈ us, t.IsRead) (hb : d.brackets = [])
    (hn : d.node before after = .ok (.declaration decl)) : Token.textOf us = decl.core := by
  obtain ⟨u, w, hbetween, _, _, _, _, htext, _⟩ := hs.respace hread hb hn
  rw [htext, Declaration.core, hbetween]
  simp

/-- A plain declaration does not end in white space. -/
theorem exists_last {us : List Token} {d : Draft} {before after : Text} {decl : Declaration}
    (hs : Statement us d) (hread : ∀ t ∈ us, t.IsRead) (hb : d.brackets = [])
    (hn : d.node before after = .ok (.declaration decl)) (hplain : decl.IsPlain) :
    ∃ x e, Token.textOf us = x ++ [e] ∧ isSpace e = false := by
  obtain ⟨u, w, _, _, _, hnil, _, htext, _⟩ := hs.respace hread hb hn
  rw [htext]
  by_cases hempty : decl.value = []
  · rw [hempty, hnil hempty]
    exact ⟨decl.prop ++ u, ':', by simp, by decide⟩
  · obtain ⟨c, v, hv⟩ := List.exists_cons_of_ne_nil hempty
    have hkept := hplain.value
    rw [hv] at hkept
    have hlast := List.dropLast_append_getLast hempty
    refine ⟨decl.prop ++ u ++ ':' :: w ++ decl.value.dropLast, decl.value.getLast hempty, ?_, ?_⟩
    · rw [List.append_assoc _ _ [_], hlast]
    · refine (HostBlock.ends_of_contents_eq_self hkept).2 decl.value.dropLast _ ?_
      rw [← hv, hlast]

theorem exists_flushes {us : List Token} {d : Draft} {before after w : Text}
    {decl : Declaration} (hs : Statement us d) (hread : ∀ t ∈ us, t.IsRead)
    (hb : d.brackets = []) (hn : d.node before after = .ok (.declaration decl))
    (hplain : decl.IsPlain) (hclear : Clear (Token.textOf us) w) :
    ∃ us' d', Flushes us us' d' decl := by
  obtain ⟨u, w₀, hbetween, hu, hw₀, hnil, hvalue, htext, hall⟩ := hs.respace hread hb hn
  have hhead : dropEnd isBlank decl.between = u ++ [':'] := by
    rw [hbetween, dropEnd_append_cons (by decide), dropEnd_of_all hw₀]
  have hkeep := hplain.head
  rw [hhead] at hkeep
  have hne : decl.prop ++ (u ++ [':']) ≠ [] := by simp
  have hsplit : Token.textOf us = decl.prop ++ (u ++ [':']) ++ (w₀ ++ decl.value) := by
    rw [htext]
    simp
  obtain ⟨us', d', between, hs', hb', hn', htext', hparted⟩ :=
    hall (HostBlock.flushLeft false w₀) (HostBlock.isGap_flushLeft hw₀ false)
      (HostBlock.head?_flushLeft w₀)
  have hsplit' : Token.textOf us' = decl.prop ++ (u ++ [':']) ++
      (HostBlock.flushLeft false w₀ ++ decl.value) := by
    rw [htext']
    simp
  refine ⟨us', d', hs', hb', ⟨between, hn' [] []⟩, ?text, ?clear, hparted, ?flush⟩
  case text =>
    refine ⟨u, _, htext', hu, HostBlock.isGap_flushLeft hw₀ false, ?_, hvalue⟩
    intro h
    rw [hnil h]
    rfl
  case clear =>
    rw [hsplit] at hclear
    obtain ⟨hfront, hrest⟩ := clear_append_iff.1 hclear
    have hvalueClear : Clear decl.value [] := (clear_append_iff.1 hrest).2.nil_right
    rw [hsplit']
    refine clear_append_iff.2 ⟨?_, clear_append_iff.2
      ⟨(HostBlock.isGap_flushLeft hw₀ false).isLoose.clear _, hvalueClear⟩⟩
    -- Behind the colon stands the same character as before.
    cases w₀ with
    | nil =>
      rw [List.nil_append] at hfront
      rw [HostBlock.flushLeft, List.nil_append, List.append_nil]
      exact hfront.left_of_append
    | cons c w₁ =>
      have hc : c ∉ hostSelector := not_mem_hostSelector (hw₀ c List.mem_cons_self)
      rw [HostBlock.flushLeft, Bool.false_and, if_neg Bool.false_ne_true]
      exact hfront.replace hc _
  case flush =>
    intro b g r
    rw [hsplit, hsplit', List.append_assoc,
      HostBlock.flushLeft_append_of_contents_eq_self hkeep hne]
    by_cases hempty : decl.value = []
    · rw [hempty, hnil hempty]
      simp [HostBlock.flushLeft]
    · have hinner := HostBlock.flushLeft_append_of_contents_eq_self hplain.value hempty false w₀ r
      rw [List.append_assoc w₀, hinner]
      simp

/-- A plain declaration that does not change in front of what may end it is an open one in
the place of its block. -/
theorem Flushes.waits {us us' : List Token} {d d' : Draft} {decl : Declaration} {gap v : Text}
    {e : Char} (h : Flushes us us' d' decl) (hs : Statement us d) (hb : d.brackets = [])
    (htext : Token.textOf us = decl.core) (hgap : IsGap gap) (he : isSeam e = true)
    (hparted : Token.Parted us (gap ++ e :: v)) (hsettled : Settled decl.core) :
    Waits us' d' decl.prop decl.value := by
  obtain ⟨c, hc, hfirst⟩ : ∃ c, isSeam c = true ∧ Token.Parted us [c] := by
    cases gap with
    | nil => exact ⟨e, he, hparted.replace he (hs.shut hb) []⟩
    | cons c gap =>
      have hc := isSeam_of_isBlank (hgap c List.mem_cons_self)
      exact ⟨c, hc, hparted.replace hc (hs.shut hb) []⟩
  have hus : Token.ofText decl.core = us := by
    rw [Token.Parted, htext, hsettled c hc] at hfirst
    exact List.append_cancel_right hfirst
  refine ⟨h.statement, h.brackets, h.node, h.parted [] ?_, fun a ha => h.parted [a] ?_, h.clear,
    h.text⟩
  · rw [Token.Parted, htext, List.append_nil, hus, Token.ofText, List.append_nil]
  · rw [Token.Parted, htext, hsettled a ha, hus]

end Statement

/-! ## The contents of a block -/

/-- The contents of a block are a gap and then text that is read as the declarations of the
block.  If the last of them stands open, it is left over. -/
structure Splice (nodes : List Node) (opened : Bool) (text k y : Text) : Prop where
  eq : text = k ++ y
  loose : IsLoose k
  first : ∀ n ns, nodes = n :: ns → (';' ∈ k ↔ ';' ∈ n.before) ∧ Begins y
  reads : ∃ items q left, items ++ left = Node.sift (Label.left? {}) nodes ∧
    Pending opened q left ∧ ∀ (v : Text) (r : Reader), r.draft = none →
      r.Reads (Token.ofText (rewriteForms (y ++ v))) items
        (Token.ofText (rewriteForms (q ++ v)))

theorem not_mem_of_isLoose {g : Text} (h : IsLoose g) : '\x7d' ∉ g := by
  intro hmem
  rcases h _ hmem with hc | hc <;> cases hc

theorem semicolon_mem_flushLeft_iff {d : Draft} {before after : Text} {n m : Node}
    {ns ms : List Node} (hn : d.node before after = .ok n) (h : n :: ns = m :: ms) (b : Bool) :
    ';' ∈ HostBlock.flushLeft b before ↔ ';' ∈ m.before := by
  obtain ⟨rfl, _⟩ := List.cons.inj h
  rw [HostBlock.mem_flushLeft_iff (by decide), Draft.before_of_node hn]

namespace Statement

variable {us : List Token} {d : Draft} {before gap w : Text} {decl : Declaration}

/-- The last declaration of a block stands open behind the contents if it has no semicolon. -/
theorem exists_splice_last (hs : Statement us d) (hbefore : IsLoose before)
    (hb : d.brackets = []) (hgap : IsGap gap) {after : Text}
    (hn : d.node before after = .ok (.declaration decl)) (hplain : decl.IsPlain)
    (hsettled : Settled decl.core) {v : Text} (hparted : Token.Parted us (gap ++ '\x7d' :: v))
    (hclear : Clear (Token.textOf us) w) (b : Bool) :
    ∃ k y, Splice [.declaration decl] true
      (HostBlock.flushLeft b (dropEnd isSpace (before ++ (Token.textOf us ++ gap)))) k y := by
  have hread : ∀ t ∈ us, t.IsRead := fun t ht => hparted.isRead ht
  obtain ⟨us', d', hf⟩ := hs.exists_flushes hread hb hn hplain hclear
  obtain ⟨x, c, hx, hc⟩ := hs.exists_last hread hb hn hplain
  have hwaits := hf.waits hs hb (hs.textOf_eq_core hread hb hn) hgap (e := '\x7d') rfl hparted
    hsettled
  have hspace : ∀ c ∈ gap, isSpace c = true := fun c hc => Node.isSpace_of_isBlank (hgap c hc)
  have hdrop : dropEnd isSpace (before ++ (Token.textOf us ++ gap)) =
      before ++ (Token.textOf us ++ []) := by
    rw [hx, List.append_assoc, List.singleton_append, ← List.append_assoc,
      dropEnd_append_cons hc, dropEnd_of_all hspace]
    simp
  have hbegins : Begins (Token.textOf us') := by
    have hfirst := hf.statement.begins (hf.parted _ hparted) []
    rwa [List.append_nil] at hfirst
  refine ⟨HostBlock.flushLeft b before, Token.textOf us', ?eq,
    HostBlock.isLoose_flushLeft hbefore b, ?first, [], Token.textOf us' ++ [],
    [.declaration decl.prop decl.value], ?items, .some hwaits isGap_nil, ?reads⟩
  case eq =>
    rw [hdrop, hf.flush]
    exact congrArg _ (List.append_nil _)
  case first =>
    intro m ms h
    exact ⟨semicolon_mem_flushLeft_iff hn h b, hbegins⟩
  case items =>
    rw [Node.sift_singleton]
    rfl
  case reads =>
    intro v r hd
    rw [List.append_nil]
    exact .refl hd _

/-- A declaration with its semicolon is read as it was, in front of the other declarations. -/
theorem exists_splice_cons (hs : Statement us d) (hbefore : IsLoose before)
    (hb : d.brackets = []) (hgap : IsGap gap) {after : Text}
    (hn : d.node before after = .ok (.declaration decl)) (hplain : decl.IsPlain) {v : Text}
    (hparted : Token.Parted us (gap ++ ';' :: v)) (hclear : Clear (Token.textOf us) w)
    {ns : List Node} {opened : Bool} {text k y : Text}
    (hsplice : Splice ns opened (HostBlock.flushLeft false (dropEnd isSpace text)) k y)
    (b : Bool) :
    ∃ k' y', Splice (.declaration decl :: ns) opened (HostBlock.flushLeft b
      (dropEnd isSpace (before ++ (Token.textOf us ++ (gap ++ ';' :: text))))) k' y' := by
  obtain ⟨us', d', hf⟩ :=
    hs.exists_flushes (fun t ht => hparted.isRead ht) hb hn hplain hclear
  obtain ⟨items, q, left, hitems, hpending, hreads⟩ := hsplice.reads
  have hline : ∀ r, HostBlock.flushLeft false (gap ++ ';' :: r) =
      HostBlock.flushLeft false gap ++ ';' :: HostBlock.flushLeft false r :=
    HostBlock.flushLeft_append_cons (by decide) false gap
  have hdrop : dropEnd isSpace (before ++ (Token.textOf us ++ (gap ++ ';' :: text))) =
      before ++ (Token.textOf us ++ (gap ++ ';' :: dropEnd isSpace text)) := by
    have hcut := dropEnd_append_cons (p := isSpace) (c := ';') (by decide)
      (before ++ (Token.textOf us ++ gap)) text
    simpa only [List.append_assoc] using hcut
  refine ⟨HostBlock.flushLeft b before, Token.textOf us' ++
    (HostBlock.flushLeft false gap ++ ';' :: (k ++ y)), ?eq,
    HostBlock.isLoose_flushLeft hbefore b, ?first,
    .declaration decl.prop decl.value :: items, q, left, ?items, hpending, ?reads⟩
  case eq => rw [hdrop, hf.flush, hline, hsplice.eq]
  case first =>
    intro m ms h
    exact ⟨semicolon_mem_flushLeft_iff hn h b, hf.statement.begins (hf.parted _ hparted) _⟩
  case items =>
    rw [Node.sift_cons, Node.sift_singleton, ← hitems]
    rfl
  case reads =>
    intro v r hd
    obtain ⟨between, hnode⟩ := hf.node
    have hsplit : Token.textOf us' ++ (HostBlock.flushLeft false gap ++ ';' :: (k ++ y)) ++ v =
        Token.textOf us' ++ (HostBlock.flushLeft false gap ++ ';' :: (k ++ (y ++ v))) := by simp
    have hparted' : Token.Parted us' (HostBlock.flushLeft false gap ++ [';']) :=
      hf.statement.parted_gap_append hf.brackets hgap (HostBlock.head?_flushLeft gap) rfl
        (hf.parted _ hparted) _
    have hread := hf.statement.reads_rewriteForms hf.brackets (HostBlock.isGap_flushLeft hgap false)
      hnode hf.clear hparted' hd (k ++ (y ++ v))
    have hrest := hread.trans fun r' hr' =>
      (Reader.reads_loose hr'.draft hsplice.loose (y ++ v)).trans fun r'' hr'' =>
        hreads v r'' hr''.draft
    rw [Node.sift_singleton] at hrest
    rw [hsplit]
    exact hrest

end Statement

theorem Spells.exists_splice {inBlock terminated : Bool} {inner : List Token}
    {nodes : List Node} {e : Ending} (h : Spells inBlock terminated inner nodes e)
    (hin : inBlock = true) (hstart : terminated = true ∨ nodes ≠ [])
    (hplain : ∀ n ∈ nodes, ∃ d, n = .declaration d ∧ d.IsPlain)
    (hlast : e.terminated = false → ∀ d, nodes.getLast? = some (.declaration d) →
      Settled d.core) {ts : List Token} {w : Text}
    (hparted : Token.Parted (inner ++ .closer .curly :: ts) [])
    (hclear : Clear (Token.textOf inner) w) (b : Bool) :
    '\x7d' ∉ Token.textOf inner ∧ ∃ k y, Splice nodes (!e.terminated)
      (HostBlock.flushLeft b (dropEnd isSpace (Token.textOf inner))) k y := by
  induction h generalizing b with
  | @nil inBlock terminated gap hgap =>
    obtain rfl : terminated = true := hstart.resolve_right fun h => h rfl
    rw [Token.textOf_ofGap]
    have hloose : IsLoose (dropEnd isSpace gap) := fun c hc => hgap c (mem_of_mem_dropEnd hc)
    refine ⟨not_mem_of_isLoose hgap, _, [], (List.append_nil _).symm,
      HostBlock.isLoose_flushLeft hloose b, nofun, [], [], [], rfl, .none, ?_⟩
    intro v r hd
    exact .refl hd _
  | @last inBlock terminated before gap us d n hbefore hs hn hgap hb =>
    obtain ⟨decl, rfl, hdecl⟩ := hplain n List.mem_cons_self
    have hclosed : d.brackets = [] := hb.resolve_right fun h => by rw [hin] at h; cases h.1
    obtain ⟨hus, _⟩ := hparted.between
    have htext := hs.textOf_eq_core (fun t ht => hus.isRead ht) hclosed hn
    simp only [Token.textOf_append, Token.textOf_ofGap, List.append_assoc] at hclear ⊢
    refine ⟨?_, hs.exists_splice_last hbefore hclosed hgap hn hdecl (hlast rfl decl rfl) hus
      (clear_append_iff.1 (clear_append_iff.1 hclear).2).1 b⟩
    rw [List.mem_append, List.mem_append, htext]
    rintro (hmem | hmem | hmem)
    · exact not_mem_of_isLoose hbefore hmem
    · exact hdecl.unclosed hmem
    · exact not_mem_of_isLoose hgap.isLoose hmem
  | @comment inBlock terminated before body ts ns e hbefore h ih =>
    obtain ⟨d, hd, _⟩ := hplain _ List.mem_cons_self
    cases hd
  | @statement inBlock terminated before gap us vs d n ns e hbefore hs hb hgap hn h ih =>
    obtain ⟨decl, rfl, hdecl⟩ := hplain n List.mem_cons_self
    rw [List.append_assoc, List.cons_append] at hparted
    obtain ⟨hus, _⟩ := hparted.between
    have hvs : Token.Parted (vs ++ .closer .curly :: ts) [] := hparted.tail
    have htext := hs.textOf_eq_core (fun t ht => hus.isRead ht) hb hn
    rw [Token.textOf_between, Token.textOf_cons] at hclear ⊢
    obtain ⟨hclearUs, hclearRest⟩ := clear_append_iff.1 (clear_append_iff.1 hclear).2
    have hclearVs : Clear (Token.textOf vs) w :=
      (clear_append_iff.1 (clear_append_iff.1 hclearRest).2).2
    obtain ⟨hunclosed, k, y, hsplice⟩ := ih hin (.inl rfl)
      (fun m hm => hplain m (List.mem_cons_of_mem _ hm))
      (fun he m hm => hlast he m (by rw [List.getLast?_cons, hm]; rfl)) hvs hclearVs false
    refine ⟨?_, hs.exists_splice_cons hbefore hb hgap hn hdecl hus hclearUs hsplice b⟩
    simp only [List.mem_append, htext]
    rintro (hmem | hmem | hmem | hmem | hmem)
    · exact not_mem_of_isLoose hbefore hmem
    · exact hdecl.unclosed hmem
    · exact not_mem_of_isLoose hgap.isLoose hmem
    · cases List.mem_singleton.1 hmem
    · exact hunclosed hmem
  | @block inBlock terminated before gap us inner ts d head nodes ns ending e hbefore hs hb hgap
      hh hinner h _ ih =>
    obtain ⟨d, hd, _⟩ := hplain _ List.mem_cons_self
    cases head <;> cases hd

end HostSheet
