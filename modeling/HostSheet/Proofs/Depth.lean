import Mathlib
import HostSheet.Options.Check
import HostSheet.TextMode
import HostSheet.Proofs.Brackets
import HostSheet.Proofs.Unwrapping

set_option autoImplicit false

/-!
# Braces in a text

A text is balanced if its braces pair up: none closes what was not opened, and none stays
open (`Balanced`).  The patterns work on characters and do not pair braces, and the contents of
a host block end at the first brace that closes, whatever was opened inside.  Still a balanced
text stays balanced (`balanced_transformText`).

The depth of a place in a text is the number of braces that are open there (`depth?`).  Each
match leaves the depth behind it as it was, on whatever depth it starts
(`depth?_replaceAll`), so a whole pass does, and so do all passes together.
-/

namespace HostSheet

open Text

/-! ## Depth -/

/-- No part of the text from the start closes more braces than it opens, and the whole text
closes as many as it opens. -/
def Balanced (s : Text) : Prop :=
  (∀ u, u <+: s → u.count '\x7d' ≤ u.count '\x7b') ∧ s.count '\x7d' = s.count '\x7b'

/-- The number of braces that are open behind a text if `d` are open in front of it, unless one
closes that is not open. -/
def depth? (d : Nat) : Text → Option Nat
  | [] => some d
  | c :: r =>
    if c = '\x7b' then depth? (d + 1) r
    else if c = '\x7d' then if d = 0 then none else depth? (d - 1) r
    else depth? d r

theorem depth?_append (d : Nat) (u v : Text) :
    depth? d (u ++ v) = (depth? d u).bind fun e => depth? e v := by
  induction u generalizing d with
  | nil => rfl
  | cons c u ih =>
    rw [List.cons_append, depth?, depth?]
    split
    · exact ih (d + 1)
    · split
      · split
        · rfl
        · exact ih (d - 1)
      · exact ih d

theorem depth?_cons_of_isBrace_eq_false {c : Char} (hc : isBrace c = false) (d : Nat) (r : Text) :
    depth? d (c :: r) = depth? d r := by
  rw [isBrace, Bool.or_eq_false_iff, beq_eq_false_iff_ne, beq_eq_false_iff_ne] at hc
  rw [depth?, if_neg hc.1, if_neg hc.2]

/-- Only the braces count. -/
theorem depth?_filter (d : Nat) (s : Text) : depth? d (s.filter isBrace) = depth? d s := by
  induction s generalizing d with
  | nil => rfl
  | cons c r ih =>
    cases hc : isBrace c with
    | false =>
      rw [List.filter_cons_of_neg (by simp [hc]), depth?_cons_of_isBrace_eq_false hc, ih]
    | true =>
      rw [List.filter_cons_of_pos hc, depth?, depth?]
      simp only [ih]

theorem depth?_of_any {s : Text} (h : s.any isBrace = false) (d : Nat) :
    depth? d s = some d := by
  have hnil : s.filter isBrace = [] := by simpa using h
  rw [← depth?_filter, hnil]
  rfl

/-- A text that only opens braces. -/
theorem depth?_of_not_mem {s : Text} (h : '\x7d' ∉ s) (d : Nat) :
    depth? d s = some (d + s.count '\x7b') := by
  induction s generalizing d with
  | nil => rfl
  | cons c r ih =>
    rw [List.mem_cons, not_or] at h
    rw [depth?]
    by_cases hc : c = '\x7b'
    · rw [if_pos hc, ih h.2, hc, List.count_cons_self, Nat.add_right_comm, Nat.add_assoc]
    · rw [if_neg hc, if_neg (Ne.symm h.1), ih h.2, List.count_cons_of_ne hc]

/-- The depth in terms of counts. -/
theorem depth?_eq_some_iff {d e : Nat} {s : Text} :
    depth? d s = some e ↔ (∀ u, u <+: s → u.count '\x7d' ≤ d + u.count '\x7b') ∧
      e + s.count '\x7d' = d + s.count '\x7b' := by
  induction s generalizing d with
  | nil => simp [depth?, eq_comm]
  | cons c r ih =>
    have hprefix : ∀ {p : Text → Prop}, (∀ u, u <+: c :: r → p u) ↔
        p [] ∧ ∀ u, u <+: r → p (c :: u) := by
      intro p
      constructor
      · intro h
        exact ⟨h [] List.nil_prefix, fun u hu => h (c :: u) ((List.prefix_cons_inj c).2 hu)⟩
      · rintro ⟨hnil, hcons⟩ u hu
        cases u with
        | nil => exact hnil
        | cons a u =>
          obtain ⟨rfl, htail⟩ := List.cons_prefix_cons.1 hu
          exact hcons u htail
    rw [depth?, hprefix]
    by_cases hopen : c = '\x7b'
    · subst hopen
      rw [if_pos rfl, ih]
      simp [Nat.add_right_comm, Nat.add_assoc]
    · by_cases hclose : c = '\x7d'
      · subst hclose
        rw [if_neg (by decide), if_pos rfl]
        cases d with
        | zero =>
          refine iff_of_false nofun ?_
          rintro ⟨⟨_, h⟩, _⟩
          have := h [] List.nil_prefix
          simp at this
        | succ d =>
          rw [if_neg (Nat.succ_ne_zero d), Nat.add_sub_cancel, ih]
          simp [Nat.add_right_comm _ 1, ← Nat.add_assoc]
      · rw [if_neg hopen, if_neg hclose, ih]
        simp [List.count_cons_of_ne hopen, List.count_cons_of_ne hclose]

/-- One more brace may be open around a text. -/
theorem depth?_succ {d e : Nat} {s : Text} (h : depth? d s = some e) :
    depth? (d + 1) s = some (e + 1) := by
  rw [depth?_eq_some_iff] at h ⊢
  refine ⟨fun u hu => ?_, ?_⟩
  · have := h.1 u hu
    omega
  · have := h.2
    omega

theorem balanced_iff_depth? {s : Text} : Balanced s ↔ depth? 0 s = some 0 := by
  rw [depth?_eq_some_iff]
  simp [Balanced]

/-! ## Matches -/

/-- Replacing the matches of a pattern changes the depth nowhere behind a match, if no
replacement changes it behind its own match. -/
theorem depth?_replaceAll {p : Pattern}
    (h : ∀ {s out rest : Text}, p.read s = some (out, rest) →
      ∃ m, s = m ++ rest ∧ ∀ d, depth? d out = depth? d m) (d : Nat) (s : Text) :
    depth? d (p.replaceAll s) = depth? d s := by
  fun_induction Pattern.replaceAll p s generalizing d with
  | case1 => rfl
  | case2 c r out rest hread ih =>
    obtain ⟨m, hm, hout⟩ := h hread
    rw [hm, depth?_append, depth?_append, hout]
    simp only [ih]
  | case3 c r hread ih =>
    rw [depth?, depth?]
    simp only [ih]

/-! ## White space -/

theorem isBrace_of_isSpace {c : Char} (h : isSpace c = true) : isBrace c = false := by
  rw [isBrace, Bool.or_eq_false_iff, beq_eq_false_iff_ne, beq_eq_false_iff_ne]
  constructor <;> (rintro rfl; cases h)

theorem any_isBrace_of_isSpace {s : Text} (h : ∀ c ∈ s, isSpace c = true) :
    s.any isBrace = false := by
  refine List.any_eq_false.2 fun c hc => ?_
  rw [isBrace_of_isSpace (h c hc)]
  exact Bool.false_ne_true

theorem filter_isBrace_flushLeft (b : Bool) (s : Text) :
    (HostBlock.flushLeft b s).filter isBrace = s.filter isBrace := by
  induction s generalizing b with
  | nil => rfl
  | cons c r ih =>
    rw [HostBlock.flushLeft]
    split
    · rename_i h
      rw [Bool.and_eq_true] at h
      rw [ih, List.filter_cons_of_neg (by rw [isBrace_of_isSpace h.2]; exact Bool.false_ne_true)]
    · rw [List.filter_cons, List.filter_cons, ih]

theorem filter_isBrace_dropEnd (s : Text) :
    (dropEnd isSpace s).filter isBrace = s.filter isBrace := by
  have hend : (takeEnd isSpace s).filter isBrace = [] := by
    refine List.filter_eq_nil_iff.2 fun c hc => ?_
    rw [takeEnd, List.mem_reverse] at hc
    rw [isBrace_of_isSpace (List.mem_takeWhile_imp hc)]
    exact Bool.false_ne_true
  conv_rhs => rw [← dropEnd_append_takeEnd isSpace s, List.filter_append, hend, List.append_nil]

/-- What unwrapping takes off the contents of a block is no brace. -/
theorem depth?_contents (d : Nat) (body : Text) :
    depth? d (HostBlock.contents body) = depth? d body := by
  rw [← depth?_filter, HostBlock.contents_eq, filter_isBrace_flushLeft, filter_isBrace_dropEnd,
    depth?_filter]

/-! ## Names -/

theorem isBrace_of_isInner {c : Char} (h : Attribute.isInner c = true) : isBrace c = false := by
  rw [isBrace, Bool.or_eq_false_iff, beq_eq_false_iff_ne, beq_eq_false_iff_ne]
  constructor <;> (rintro rfl; cases h)

theorem depth?_of_isName {name : Text} (h : Attribute.isName name = true) (d : Nat) :
    depth? d name = some d := by
  refine depth?_of_any (List.any_eq_false.2 fun c hc => ?_) d
  rw [isBrace_of_isInner (Attribute.isInner_of_mem h hc)]
  exact Bool.false_ne_true

theorem depth?_remapNames (exclude : List Text) (d : Nat) (s : Text) :
    depth? d (Selector.remapNames exclude s).text = depth? d s := by
  refine depth?_replaceAll ?_ d s
  intro s out rest h
  obtain ⟨name, rfl, hname, _, rfl⟩ := Selector.readBracketed_eq_some_iff.1 h
  refine ⟨'[' :: name, rfl, fun d => ?_⟩
  rw [depth?_cons_of_isBrace_eq_false rfl, depth?_cons_of_isBrace_eq_false rfl,
    depth?_of_isName hname, depth?_of_isName (Attribute.isName_remap exclude hname)]

theorem depth?_remapAttributes (o : Options) (d : Nat) (s : Text) :
    depth? d (Selector.remapAttributes o s).text = depth? d s := by
  unfold Selector.remapAttributes
  split
  · exact depth?_remapNames o.excluded d s
  · rfl

theorem depth?_remapFirstName (exclude : List Text) (d : Nat) (s : Text) :
    depth? d (Selector.remapFirstName exclude s) = depth? d s := by
  induction s generalizing d with
  | nil => rfl
  | cons c r ih =>
    rw [Selector.remapFirstName]
    split
    · rename_i name rest h
      obtain ⟨hs, hname, _⟩ := Selector.splitName?_eq_some_iff.1 h
      rw [hs, depth?_append, depth?_append, depth?_of_isName hname,
        depth?_of_isName (Attribute.isName_remap exclude hname)]
    · rw [depth?, depth?]
      simp only [ih]

/-! ## The passes -/

/-- A host block closes one brace that it has opened.  What is opened between the two stays
open, in the text as in the contents. -/
theorem depth?_unwrap (d : Nat) (s : Text) :
    depth? d (HostBlock.unwrap s).text = depth? d s := by
  refine depth?_replaceAll ?_ d s
  intro s out rest h
  obtain ⟨space, body, rfl, hspace, hbody, rfl⟩ := HostBlock.readBlock_eq_some_iff.1 h
  refine ⟨hostSelector ++ space ++ '\x7b' :: body ++ ['\x7d'], by simp, fun d => ?_⟩
  have hclose : depth? (d + 1 + body.count '\x7b') ['\x7d'] = some (d + body.count '\x7b') := by
    rw [depth?, if_neg (by decide), if_pos rfl, if_neg (by omega), depth?]
    congr 1
    omega
  have hlead : (hostSelector ++ space).any isBrace = false := by
    rw [List.any_append, any_isBrace_of_isSpace hspace]
    rfl
  calc depth? d (HostBlock.contents body)
      = some (d + body.count '\x7b') := by rw [depth?_contents, depth?_of_not_mem hbody]
    _ = (depth? d ('\x7b' :: body)).bind fun e => depth? e ['\x7d'] := by
        rw [depth?, if_pos rfl, depth?_of_not_mem hbody, Option.bind_some, hclose]
    _ = depth? d (hostSelector ++ space ++ '\x7b' :: body ++ ['\x7d']) := by
        rw [List.append_assoc, depth?_append d (hostSelector ++ space), depth?_of_any hlead,
          Option.bind_some, depth?_append]

theorem depth?_hostFunction {o : Options} (htag : o.hostTag.any isBrace = false) (d : Nat)
    (s : Text) : depth? d ((Selector.hostFunction o).replaceAll s) = depth? d s := by
  refine depth?_replaceAll ?_ d s
  intro s out rest h
  obtain ⟨argument, rfl, _, rfl⟩ := Selector.readHostFunction_eq_some_iff.1 h
  refine ⟨hostSelector ++ '(' :: argument ++ [')'], by simp, fun d => ?_⟩
  have hclose : ∀ d, depth? d [')'] = some d := depth?_of_any rfl
  have hopen : (hostSelector ++ ['(']).any isBrace = false := rfl
  have hsplit : hostSelector ++ '(' :: argument ++ [')'] =
      hostSelector ++ ['('] ++ argument ++ [')'] := by simp
  calc depth? d (o.hostTag ++ (Selector.remapAttributes o argument).text)
      = depth? d argument := by
        rw [depth?_append, depth?_of_any htag, Option.bind_some, depth?_remapAttributes]
    _ = depth? d (hostSelector ++ ['('] ++ argument) := by
        rw [depth?_append, depth?_of_any hopen, Option.bind_some]
    _ = depth? d (hostSelector ++ '(' :: argument ++ [')']) := by
        rw [hsplit, depth?_append d _ [')'], funext hclose, Option.bind_fun_some]

theorem depth?_hostDescendant {o : Options} (htag : o.hostTag.any isBrace = false)
    (d : Nat) (s : Text) : depth? d ((Selector.hostDescendant o).replaceAll s) = depth? d s := by
  refine depth?_replaceAll ?_ d s
  intro s out rest h
  obtain ⟨space, content, rfl, _, hspace, _, rfl⟩ :=
    Selector.readHostDescendant_eq_some_iff.1 h
  refine ⟨hostSelector ++ space ++ '[' :: content ++ [']'], by simp, fun d => ?_⟩
  have hcontent : depth? d (if o.dataAttributes = true then
      Selector.remapFirstName o.excluded content else content) = depth? d content := by
    split
    · exact depth?_remapFirstName o.excluded d content
    · rfl
  have htagged : (o.hostTag ++ [' ', '[']).any isBrace = false := by
    rw [List.any_append, htag]
    rfl
  have hopen : (hostSelector ++ space ++ ['[']).any isBrace = false := by
    rw [List.any_append, List.any_append, any_isBrace_of_isSpace hspace]
    rfl
  have hsplit : hostSelector ++ space ++ '[' :: content ++ [']'] =
      hostSelector ++ space ++ ['['] ++ content ++ [']'] := by simp
  rw [hsplit, depth?_append d _ [']'], depth?_append d _ [']'], depth?_append d _ content,
    depth?_of_any hopen, depth?_append, depth?_of_any htagged, Option.bind_some,
    Option.bind_some, hcontent]

/-- Rewriting changes no depth. -/
theorem depth?_rewriteText {o : Options} (htag : o.hostTag.any isBrace = false) (d : Nat)
    (s : Text) : depth? d (rewriteText o s) = depth? d s :=
  calc depth? d (rewriteText o s)
      = depth? d (Selector.rewriteHost o (HostBlock.unwrap s).text).text :=
        depth?_remapAttributes o d _
    _ = depth? d ((Selector.hostFunction o).replaceAll (HostBlock.unwrap s).text) :=
        depth?_hostDescendant htag d _
    _ = depth? d (HostBlock.unwrap s).text := depth?_hostFunction htag d _
    _ = depth? d s := depth?_unwrap d s

/-! ## Layers and options -/

theorem balanced_wrapInLayer {s : Text} (hs : Balanced s) {layer : Option Text}
    (hlayer : ∀ name, layer = some name → name.any isBrace = false) :
    Balanced (wrapInLayer s layer) := by
  unfold wrapInLayer
  split
  · exact hs
  · exact hs
  · rename_i name _
    have hfront : (['@', 'l', 'a', 'y', 'e', 'r', ' '] ++ name ++ [' ']).any isBrace = false := by
      rw [List.any_append, List.any_append, hlayer name rfl]
      rfl
    have hsplit : ['@', 'l', 'a', 'y', 'e', 'r', ' '] ++ name ++ [' ', '\x7b', '\n'] ++ s ++
        ['\n', '\x7d'] = ['@', 'l', 'a', 'y', 'e', 'r', ' '] ++ name ++ [' '] ++
          '\x7b' :: '\n' :: (s ++ ['\n', '\x7d']) := by simp
    rw [balanced_iff_depth?] at hs ⊢
    rw [hsplit, depth?_append, depth?_of_any hfront, Option.bind_some, depth?, if_pos rfl,
      depth?_cons_of_isBrace_eq_false rfl, depth?_append, depth?_succ hs]
    rfl

namespace Options

/-- Options that pass the check put no brace into a text. -/
theorem any_isBrace_of_check {o : Options} (h : o.check = .ok ()) :
    o.hostTag.any isBrace = false ∧
      ∀ name, o.layerName = some name → name.any isBrace = false := by
  unfold check at h
  split at h
  · cases h
  rename_i htag
  have htag' : o.hostTag.any isBrace = false := by
    simp only [isHostTag, Bool.not_eq_true', Bool.not_eq_false, Bool.and_eq_true] at htag
    exact htag.2
  refine ⟨htag', fun name hname => ?_⟩
  rw [hname] at h
  dsimp only at h
  split at h
  · rename_i hlayer
    rw [isLayerName, Bool.not_eq_true', List.any_eq_false] at hlayer
    refine List.any_eq_false.2 fun c hc hbrace => hlayer c hc ?_
    rw [hbrace, Bool.true_or]
  · cases h

end Options

/-- Whatever is rewritten in a balanced text, and whatever layer it is put into, it stays
balanced, if the options pass their check. -/
theorem balanced_transformText {o : Options} (hcheck : o.check = .ok ()) {css : Text}
    (hcss : Balanced css) : Balanced (transformText o css) := by
  obtain ⟨htag, hname⟩ := Options.any_isBrace_of_check hcheck
  have hrewritten : Balanced (rewriteText o css) := by
    rw [balanced_iff_depth?] at hcss ⊢
    rwa [depth?_rewriteText htag]
  refine balanced_wrapInLayer hrewritten fun name h => hname name ?_
  exact (Option.filter_eq_some_iff.1 h).1

/-- A host block with a rule inside, whose first brace that closes is not its own, in a layer. -/
theorem balanced_transformText_nested :
    Options.check { hostTag := ['.', 'x'], layerName := some ['l'], dataAttributes := true } =
        .ok () ∧
      Balanced ":host\x7ba\x7bb:c\x7dd:e\x7d:host([f])\x7b\x7d".toList ∧
      Balanced (transformText
        { hostTag := ['.', 'x'], layerName := some ['l'], dataAttributes := true }
        ":host\x7ba\x7bb:c\x7dd:e\x7d:host([f])\x7b\x7d".toList) := by
  have hcheck : Options.check
      { hostTag := ['.', 'x'], layerName := some ['l'], dataAttributes := true } = .ok () := rfl
  have hcss : Balanced ":host\x7ba\x7bb:c\x7dd:e\x7d:host([f])\x7b\x7d".toList :=
    balanced_iff_depth?.2 (by decide +kernel)
  exact ⟨hcheck, hcss, balanced_transformText hcheck hcss⟩

end HostSheet
