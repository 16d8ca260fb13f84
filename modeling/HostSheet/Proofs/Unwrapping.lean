import Mathlib
import HostSheet.Proofs.Agreement
import HostSheet.Proofs.Seams

set_option autoImplicit false

/-!
# What unwrapping does to the characters

The contents of a host block are its body without white space at its ends and at the start
of each line.  A text that has no such white space goes through as it is, and of a gap
there remain its first character and all semicolons (`contents_eq`, `flushLeft_append`).

The forms with `:host` are then rewritten in the result.  Where `:host` starts nowhere in a
part of a text, that part stays (`rewriteHost_append`); where it does start, the colon is
the first character that changes (`Dents`).
-/

namespace HostSheet

open Text

/-! ## White space at the ends -/

namespace Text

theorem dropEnd_append_cons {p : Char → Bool} {c : Char} (hc : p c = false) (u r : Text) :
    dropEnd p (u ++ c :: r) = u ++ c :: dropEnd p r := by
  rw [dropEnd, dropEnd, List.reverse_append, List.reverse_cons, List.append_assoc,
    List.dropWhile_append]
  split
  · rename_i hr
    rw [List.isEmpty_iff] at hr
    simp [hr, hc]
  · simp

theorem dropEnd_of_all {p : Char → Bool} {r : Text} (h : ∀ c ∈ r, p c = true) :
    dropEnd p r = [] := by
  rw [dropEnd, List.dropWhile_eq_nil_iff.2 fun c hc => h c (List.mem_reverse.1 hc)]
  rfl

theorem mem_of_mem_dropEnd {p : Char → Bool} {c : Char} {s : Text} (h : c ∈ dropEnd p s) :
    c ∈ s := by
  rw [← dropEnd_append_takeEnd p s]
  exact List.mem_append_left _ h

theorem dropEnd_cons (p : Char → Bool) (c : Char) (r : Text) :
    dropEnd p (c :: r) = if dropEnd p r = [] then dropEnd p [c] else c :: dropEnd p r := by
  rw [dropEnd, dropEnd, dropEnd, List.reverse_cons, List.dropWhile_append]
  by_cases h : r.reverse.dropWhile p = []
  · simp [h]
  · simp [h]

end Text

namespace HostBlock

/-! ## White space at the start of lines -/

theorem flushLeft_cons_of_not_isSpace {c : Char} (hc : isSpace c = false) (b : Bool) (r : Text) :
    flushLeft b (c :: r) = c :: flushLeft false r := by
  have hline : (c == '\n') = false := by
    rw [beq_eq_false_iff_ne]
    rintro rfl
    cases hc
  rw [flushLeft, hc, hline, Bool.and_false]
  rfl

/-- A character that is no white space is kept, and a line goes on behind it. -/
theorem flushLeft_append_cons {c : Char} (hc : isSpace c = false) (b : Bool) (g r : Text) :
    flushLeft b (g ++ c :: r) = flushLeft b g ++ c :: flushLeft false r := by
  induction g generalizing b with
  | nil => exact flushLeft_cons_of_not_isSpace hc b r
  | cons a g ih =>
    rw [List.cons_append, flushLeft, flushLeft]
    split
    · exact ih true
    · exact congrArg (a :: ·) (ih _)

theorem length_flushLeft_le (b : Bool) (s : Text) : (flushLeft b s).length ≤ s.length := by
  induction s generalizing b with
  | nil => exact le_rfl
  | cons c r ih =>
    rw [flushLeft]
    split
    · exact (ih true).trans (Nat.le_succ _)
    · exact Nat.succ_le_succ (ih _)

theorem mem_of_mem_flushLeft {b : Bool} {s : Text} {c : Char} (h : c ∈ flushLeft b s) : c ∈ s := by
  induction s generalizing b with
  | nil => exact h
  | cons a r ih =>
    rw [flushLeft] at h
    split at h
    · exact List.mem_cons_of_mem _ (ih h)
    · rcases List.mem_cons.1 h with rfl | h
      · exact List.mem_cons_self
      · exact List.mem_cons_of_mem _ (ih h)

theorem mem_flushLeft_iff {c : Char} (hc : isSpace c = false) {b : Bool} {s : Text} :
    c ∈ flushLeft b s ↔ c ∈ s := by
  refine ⟨mem_of_mem_flushLeft, fun h => ?_⟩
  obtain ⟨u, v, rfl⟩ := List.append_of_mem h
  rw [flushLeft_append_cons hc]
  simp

theorem isLoose_flushLeft {g : Text} (h : IsLoose g) (b : Bool) : IsLoose (flushLeft b g) :=
  fun c hc => h c (mem_of_mem_flushLeft hc)

theorem isGap_flushLeft {g : Text} (h : IsGap g) (b : Bool) : IsGap (flushLeft b g) :=
  fun c hc => h c (mem_of_mem_flushLeft hc)

/-- In the middle of a line a gap keeps its first character. -/
theorem head?_flushLeft (g : Text) : (flushLeft false g).head? = g.head? := by
  cases g with
  | nil => rfl
  | cons c g =>
    rw [flushLeft]
    rfl

/-- White space at the start of a body is white space at the start of its first line. -/
theorem contents_eq (body : Text) : contents body = flushLeft true (dropEnd isSpace body) := by
  rw [contents, trim]
  induction body with
  | nil => rfl
  | cons c r ih =>
    cases hc : isSpace c with
    | false =>
      rw [dropStart, List.dropWhile_cons_of_neg (by simp [hc])]
    | true =>
      rw [dropStart, List.dropWhile_cons_of_pos hc, dropEnd_cons]
      rw [dropStart] at ih
      rw [ih]
      by_cases hr : dropEnd isSpace r = []
      · rw [if_pos hr, hr, dropEnd_of_all]
        intro a ha
        obtain rfl := List.mem_singleton.1 ha
        exact hc
      · rw [if_neg hr, flushLeft, hc]
        rfl

/-- What is no white space stays in the contents. -/
theorem mem_contents_iff {c : Char} (hc : isSpace c = false) {body : Text} :
    c ∈ contents body ↔ c ∈ body := by
  rw [contents_eq, mem_flushLeft_iff hc]
  refine ⟨mem_of_mem_dropEnd, fun h => ?_⟩
  rw [← dropEnd_append_takeEnd isSpace body] at h
  refine (List.mem_append.1 h).resolve_right fun hend => ?_
  rw [takeEnd, List.mem_reverse] at hend
  rw [List.mem_takeWhile_imp hend] at hc
  cases hc

theorem isLoose_contents {body : Text} (h : IsLoose body) : IsLoose (contents body) := by
  rw [contents_eq]
  exact isLoose_flushLeft (fun c hc => h c (mem_of_mem_dropEnd hc)) true

/-! ## Texts that stay -/

/-- A text that unwrapping does not change starts and ends with characters that are no white
space. -/
theorem ends_of_contents_eq_self {c : Char} {r : Text} (h : contents (c :: r) = c :: r) :
    isSpace c = false ∧ ∀ u e, c :: r = u ++ [e] → isSpace e = false := by
  rw [contents_eq] at h
  have hlen : (dropEnd isSpace (c :: r)).length = (c :: r).length := by
    refine le_antisymm ?_ ?_
    · have hle := (List.dropWhile_sublist (l := (c :: r).reverse) isSpace).length_le
      rwa [List.length_reverse, ← List.length_reverse, ← dropEnd] at hle
    · have := length_flushLeft_le true (dropEnd isSpace (c :: r))
      rwa [h] at this
  have hsame : dropEnd isSpace (c :: r) = c :: r := by
    have happ := dropEnd_append_takeEnd isSpace (c :: r)
    have hnil : takeEnd isSpace (c :: r) = [] := by
      have := congrArg List.length happ
      rw [List.length_append] at this
      exact List.length_eq_zero_iff.1 (by omega)
    rwa [hnil, List.append_nil] at happ
  constructor
  · cases hc : isSpace c with
    | false => rfl
    | true =>
      rw [hsame, flushLeft, hc] at h
      have := congrArg List.length h
      have hle := length_flushLeft_le true r
      simp only [Bool.and_self, if_true, List.length_cons] at this
      omega
  · intro u e hue
    cases he : isSpace e with
    | false => rfl
    | true =>
      rw [hue, dropEnd, List.reverse_append, List.reverse_singleton, List.singleton_append,
        List.dropWhile_cons_of_pos he] at hlen
      have hle := (List.dropWhile_sublist (l := u.reverse) isSpace).length_le
      rw [List.length_reverse, List.length_append, List.length_singleton] at hlen
      rw [List.length_reverse] at hle
      omega

/-- A text that unwrapping does not change on its own is not changed in a body either. -/
theorem flushLeft_append_of_contents_eq_self {t : Text} (h : contents t = t) (hne : t ≠ [])
    (b : Bool) (g r : Text) :
    flushLeft b (g ++ (t ++ r)) = flushLeft b g ++ (t ++ flushLeft false r) := by
  cases t with
  | nil => exact absurd rfl hne
  | cons c t =>
    obtain ⟨hc, hlast⟩ := ends_of_contents_eq_self h
    rw [List.cons_append, flushLeft_append_cons hc]
    cases t using List.reverseRecOn with
    | nil => rfl
    | append_singleton t e =>
      have he : isSpace e = false := hlast (c :: t) e rfl
      have hinner : flushLeft false t = t := by
        rw [contents_eq, ← List.cons_append, dropEnd_append_cons he, List.cons_append,
          flushLeft_cons_of_not_isSpace hc, dropEnd_of_all (r := []) nofun,
          flushLeft_append_cons he] at h
        exact List.append_cancel_right (List.cons.inj h).2
      rw [List.append_assoc, List.singleton_append, flushLeft_append_cons he, hinner]
      simp

end HostBlock

/-! ## Where `:host` starts -/

/-- In front of `w` no `:host` starts in the text. -/
def Clear : Text → Text → Prop
  | [], _ => True
  | c :: t, w => ¬hostSelector <+: c :: (t ++ w) ∧ Clear t w

theorem clear_append_iff {t u w : Text} : Clear (t ++ u) w ↔ Clear t (u ++ w) ∧ Clear u w := by
  induction t with
  | nil => exact (and_iff_right trivial).symm
  | cons c t ih =>
    rw [List.cons_append, Clear, Clear, ih, List.append_assoc, and_assoc]

/-- A gap holds no colon. -/
theorem IsLoose.clear {g : Text} (h : IsLoose g) (w : Text) : Clear g w := by
  induction g with
  | nil => trivial
  | cons c g ih =>
    refine ⟨?_, ih fun a ha => h a (List.mem_cons_of_mem _ ha)⟩
    rintro ⟨r, hr⟩
    obtain rfl : ':' = c := (List.cons.inj hr).1
    rcases h ':' List.mem_cons_self with hc | hc
    · cases hc
    · cases hc

/-- What follows does not matter behind a character that `:host` does not have. -/
theorem Clear.replace {t w : Text} (h : Clear t w) {d : Char} (hd : d ∉ hostSelector)
    (w' : Text) : Clear t (d :: w') := by
  induction t with
  | nil => trivial
  | cons c t ih =>
    refine ⟨fun hprefix => h.1 ?_, ih h.2⟩
    have hin : hostSelector <+: c :: t := by
      rw [← List.isPrefixOf_iff_prefix] at hprefix ⊢
      rwa [← List.cons_append, Syntax.isPrefixOf_seam hd] at hprefix
    exact hin.trans (List.prefix_append _ _)

theorem Clear.left_of_append {t u w : Text} (h : Clear t (u ++ w)) : Clear t u := by
  induction t with
  | nil => trivial
  | cons c t ih =>
    refine ⟨fun hprefix => h.1 ?_, ih h.2⟩
    rw [← List.append_assoc]
    exact hprefix.trans (List.prefix_append (c :: (t ++ u)) w)

theorem Clear.nil_right {t w : Text} (h : Clear t w) : Clear t [] :=
  h.left_of_append (u := [])

theorem not_mem_hostSelector {c : Char} (h : Syntax.isBlank c = true) : c ∉ hostSelector := by
  intro hmem
  simp only [hostSelector, List.mem_cons, List.not_mem_nil, or_false] at hmem
  rcases hmem with rfl | rfl | rfl | rfl | rfl <;> cases h

theorem Clear.append_gap {t gap : Text} (h : Clear t []) (hgap : IsGap gap) :
    Clear (t ++ gap) [] := by
  refine clear_append_iff.2 ⟨?_, hgap.isLoose.clear []⟩
  cases gap with
  | nil => exact h
  | cons c gap => exact h.replace (not_mem_hostSelector (hgap c List.mem_cons_self)) _

theorem mentionsHost_of_clear {t : Text} (h : Clear t []) : Selector.mentionsHost t = false := by
  induction t with
  | nil => rfl
  | cons c t ih =>
    have hfirst := h.1
    rw [List.append_nil] at hfirst
    rw [Selector.mentionsHost, occursIn, Bool.or_eq_false_iff]
    refine ⟨?_, ih h.2⟩
    rwa [← Bool.not_eq_true, List.isPrefixOf_iff_prefix]

/-- A pattern whose matches start with `:host` leaves a text in which none starts. -/
theorem replaceAll_append_of_clear {p : Pattern}
    (hp : ∀ s, (p.read s).isSome = true → hostSelector <+: s) {t w : Text} (h : Clear t w) :
    p.replaceAll (t ++ w) = t ++ p.replaceAll w := by
  induction t with
  | nil => rfl
  | cons c t ih =>
    have hread : p.read (c :: (t ++ w)) = none := by
      by_contra hread
      exact h.1 (hp _ (Option.isSome_iff_ne_none.2 hread))
    rw [List.cons_append, Pattern.replaceAll_of_read_eq_none hread, ih h.2]
    rfl

theorem replaceAll_of_clear {p : Pattern} (hp : ∀ s, (p.read s).isSome = true → hostSelector <+: s)
    {t : Text} (h : Clear t []) : p.replaceAll t = t := by
  have happ := replaceAll_append_of_clear hp h
  rwa [List.append_nil, Pattern.replaceAll_nil, List.append_nil] at happ

theorem HostBlock.isPrefix_of_read {s : Text} (h : (block.read s).isSome = true) :
    hostSelector <+: s := by
  obtain ⟨⟨out, rest⟩, h⟩ := Option.isSome_iff_exists.1 h
  obtain ⟨space, body, rfl, _⟩ := readBlock_eq_some_iff.1 h
  exact ⟨space ++ '\x7b' :: body ++ '\x7d' :: rest, by simp⟩

/-- The text with the forms that are left after unwrapping rewritten, by the default
options. -/
def rewriteForms (s : Text) : Text := (Selector.rewriteHost {} s).text

theorem rewriteForms_eq (s : Text) :
    rewriteForms s = (Selector.hostDescendant {}).replaceAll
      ((Selector.hostFunction {}).replaceAll s) := rfl

theorem rewriteForms_of_clear {t : Text} (h : Clear t []) : rewriteForms t = t := by
  rw [rewriteForms_eq, replaceAll_of_clear (fun _ => Selector.isPrefix_of_readHostFunction) h,
    replaceAll_of_clear (fun _ => Selector.isPrefix_of_readHostDescendant) h]

theorem rewriteForms_append {t w : Text} (h : ∀ w', Clear t w') :
    rewriteForms (t ++ w) = t ++ rewriteForms w := by
  rw [rewriteForms_eq, rewriteForms_eq,
    replaceAll_append_of_clear (fun _ => Selector.isPrefix_of_readHostFunction) (h _),
    replaceAll_append_of_clear (fun _ => Selector.isPrefix_of_readHostDescendant) (h _)]

theorem rewriteForms_append_cons {t w : Text} (h : Clear t w) {d : Char}
    (hd : d ∉ hostSelector) (w' : Text) :
    rewriteForms (t ++ d :: w') = t ++ d :: rewriteForms w' := by
  have hall : ∀ v, Clear (t ++ [d]) v := by
    intro v
    refine clear_append_iff.2 ⟨h.replace hd v, ?_, trivial⟩
    rintro ⟨r, hr⟩
    obtain rfl : ':' = d := (List.cons.inj hr).1
    exact hd List.mem_cons_self
  have happ := rewriteForms_append (w := w') hall
  simpa using happ

theorem rewriteForms_cons {d : Char} (hd : d ∉ hostSelector) (w : Text) :
    rewriteForms (d :: w) = d :: rewriteForms w :=
  rewriteForms_append_cons (t := []) (w := []) trivial hd w

/-! ## The first change -/

/-- Two texts that are the same up to a colon in the one where the other has the sign that
stands for the component, or up to the end. -/
inductive Dents : Text → Text → Prop
  | refl (s : Text) : Dents s s
  | hit (s t : Text) : Dents (':' :: s) ('&' :: t)
  | cons (c : Char) {s t : Text} (h : Dents s t) : Dents (c :: s) (c :: t)

theorem Dents.trans {s t u : Text} (h : Dents s t) (h' : Dents t u) : Dents s u := by
  induction h generalizing u with
  | refl s => exact h'
  | hit s t =>
    cases h' with
    | refl => exact .hit s t
    | cons _ h' => exact .hit s _
  | @cons c s t h ih =>
    cases h' with
    | refl => exact .cons c h
    | hit _ u => exact .hit s u
    | cons _ h' => exact .cons c (ih h')

theorem dents_cons_iff {c d : Char} {s t : Text} :
    Dents (c :: s) (d :: t) ↔ (c = d ∧ Dents s t) ∨ (c = ':' ∧ d = '&') := by
  constructor
  · intro h
    cases h with
    | refl => exact .inl ⟨rfl, .refl s⟩
    | hit => exact .inr ⟨rfl, rfl⟩
    | cons _ h => exact .inl ⟨rfl, h⟩
  · rintro (⟨rfl, h⟩ | ⟨rfl, rfl⟩)
    · exact .cons c h
    · exact .hit s t

theorem Dents.cancel {u s t : Text} (h : Dents (u ++ s) (u ++ t)) : Dents s t := by
  induction u with
  | nil => exact h
  | cons c u ih =>
    rcases dents_cons_iff.1 h with ⟨_, h⟩ | ⟨rfl, hc⟩
    · exact ih h
    · cases hc

/-- The texts stay together up to the first colon. -/
theorem Dents.exists_append {u s t : Text} (h : Dents (u ++ s) t) (hu : ':' ∉ u) :
    ∃ t', t = u ++ t' ∧ Dents s t' := by
  induction u generalizing t with
  | nil => exact ⟨t, rfl, h⟩
  | cons c u ih =>
    rw [List.mem_cons, not_or] at hu
    cases h with
    | refl => exact ⟨s, rfl, .refl s⟩
    | hit => exact absurd rfl hu.1
    | cons _ h =>
      obtain ⟨t', rfl, ht⟩ := ih h hu.2
      exact ⟨t', rfl, ht⟩

theorem not_dents_nil {c : Char} {s : Text} : ¬Dents (c :: s) [] := nofun

theorem dents_replaceAll {p : Pattern}
    (hp : ∀ s, (p.read s).isSome = true → hostSelector <+: s)
    (hout : ∀ {s out rest : Text}, p.read s = some (out, rest) → ∃ out', out = '&' :: out')
    (s : Text) : Dents s (p.replaceAll s) := by
  induction s with
  | nil =>
    rw [Pattern.replaceAll_nil]
    exact .refl []
  | cons c r ih =>
    cases hread : p.read (c :: r) with
    | none =>
      rw [Pattern.replaceAll_of_read_eq_none hread]
      exact .cons c ih
    | some m =>
      obtain ⟨out, rest⟩ := m
      obtain ⟨w, hw⟩ := hp (c :: r) (by rw [hread]; rfl)
      obtain rfl : ':' = c := (List.cons.inj hw).1
      obtain ⟨out', rfl⟩ := hout hread
      rw [Pattern.replaceAll_of_read hread]
      exact .hit r (out' ++ p.replaceAll rest)

theorem dents_rewriteForms (s : Text) : Dents s (rewriteForms s) := by
  rw [rewriteForms_eq]
  refine (dents_replaceAll (fun _ => Selector.isPrefix_of_readHostFunction) ?_ s).trans
    (dents_replaceAll (fun _ => Selector.isPrefix_of_readHostDescendant) ?_ _)
  · intro s out rest h
    obtain ⟨argument, _, _, rfl⟩ := Selector.readHostFunction_eq_some_iff.1 h
    exact ⟨_, rfl⟩
  · intro s out rest h
    obtain ⟨space, content, _, _, _, _, rfl⟩ := Selector.readHostDescendant_eq_some_iff.1 h
    exact ⟨_, rfl⟩

end HostSheet
