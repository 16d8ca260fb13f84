import Mathlib
import HostSheet.Proofs.Unwrapping

set_option autoImplicit false

/-!
# Which host blocks are unwrapped

A host block is found by its own characters: `:host`, white space and a brace.  What stands in
front of `:host` does not matter, nor what the block holds: it ends at the first brace that closes
(`matchesIn_block_iff`).  So a block is unwrapped under every selector that ends in `:host`
(`unwrap_behind_selector`), and a text is left alone only if behind no host block that opens any
brace closes (`text_unwrap_eq_self_iff`).
-/

namespace HostSheet

open Text

/-! ## Replacements that are shorter -/

namespace Text

namespace Pattern

variable {p : Pattern}

/-- Every match is longer than what stands in its place. -/
def Shrinks (p : Pattern) : Prop :=
  ∀ {s out rest : Text}, p.read s = some (out, rest) → out.length + rest.length < s.length

theorem Shrinks.length_replaceAll_le (hp : p.Shrinks) (s : Text) :
    (p.replaceAll s).length ≤ s.length := by
  fun_induction replaceAll p s with
  | case1 => exact le_rfl
  | case2 c r out rest hread ih =>
    have := hp hread
    rw [List.length_append]
    omega
  | case3 c r hread ih => exact Nat.succ_le_succ ih

theorem Shrinks.length_replaceAll_lt (hp : p.Shrinks) {s : Text} (h : p.matchesIn s = true) :
    (p.replaceAll s).length < s.length := by
  induction s with
  | nil => cases h
  | cons c r ih =>
    cases hread : p.read (c :: r) with
    | some m =>
      obtain ⟨out, rest⟩ := m
      have := hp hread
      have := hp.length_replaceAll_le rest
      rw [replaceAll_of_read hread, List.length_append]
      omega
    | none =>
      rw [matchesIn, hread] at h
      rw [replaceAll_of_read_eq_none hread]
      exact Nat.succ_lt_succ (ih h)

/-- A text stays as it is only if nothing in it is replaced. -/
theorem Shrinks.replaceAll_eq_self_iff (hp : p.Shrinks) {s : Text} :
    p.replaceAll s = s ↔ p.matchesIn s = false := by
  refine ⟨fun h => ?_, replaceAll_of_matchesIn_eq_false⟩
  by_contra hm
  have hlt := hp.length_replaceAll_lt (by simpa using hm)
  rw [h] at hlt
  exact lt_irrefl _ hlt

/-- Where no match starts, replacing changes nothing. -/
theorem replaceAll_append_of_read_eq_none {u v : Text}
    (h : ∀ t, t <:+ u → t ≠ [] → p.read (t ++ v) = none) :
    p.replaceAll (u ++ v) = u ++ p.replaceAll v := by
  induction u with
  | nil => rfl
  | cons c u ih =>
    have hread := h (c :: u) List.suffix_rfl (List.cons_ne_nil c u)
    have htail := ih fun t ht => h t (ht.trans (List.suffix_cons c u))
    rw [List.cons_append] at hread ⊢
    rw [replaceAll_of_read_eq_none hread, htail]
    rfl

end Pattern

theorem length_dropEnd_le (p : Char → Bool) (s : Text) : (dropEnd p s).length ≤ s.length := by
  have := congrArg List.length (dropEnd_append_takeEnd p s)
  rw [List.length_append] at this
  omega

theorem exists_append_of_dropEnd {p : Char → Bool} {s t : Text} (h : dropEnd p s = t) :
    ∃ r, s = t ++ r ∧ ∀ c ∈ r, p c = true := by
  refine ⟨takeEnd p s, by rw [← h, dropEnd_append_takeEnd], fun c hc => ?_⟩
  rw [takeEnd, List.mem_reverse] at hc
  exact List.mem_takeWhile_imp hc

theorem dropEnd_append_of_all {p : Char → Bool} {r : Text} (h : ∀ c ∈ r, p c = true) (s : Text) :
    dropEnd p (s ++ r) = dropEnd p s := by
  rw [dropEnd, dropEnd, List.reverse_append,
    List.dropWhile_append_of_pos fun c hc => h c (List.mem_reverse.1 hc)]

end Text

namespace HostBlock

/-! ## Where a block opens -/

theorem length_contents_le (body : Text) : (contents body).length ≤ body.length := by
  rw [contents_eq]
  exact (length_flushLeft_le _ _).trans (length_dropEnd_le _ _)

theorem shrinks_block : block.Shrinks := by
  intro s out rest h
  obtain ⟨space, body, rfl, _, _, rfl⟩ := readBlock_eq_some_iff.1 h
  have := length_contents_le body
  simp only [List.length_append, List.length_cons]
  omega

/-- What stands behind its brace, if a host block opens at the front of a text. -/
def opened? (s : Text) : Option Text := do
  let r ← after? hostSelector s
  after? ['\x7b'] (dropStart isSpace r)

theorem opened?_eq_some_iff {s inner : Text} :
    opened? s = some inner ↔
      ∃ space, s = hostSelector ++ space ++ '\x7b' :: inner ∧ ∀ c ∈ space, isSpace c = true := by
  simp only [opened?, Option.bind_eq_bind, Option.bind_eq_some_iff, after?_eq_some_iff,
    List.singleton_append, dropStart_eq_brace_iff]
  constructor
  · rintro ⟨_, rfl, space, rfl, hspace⟩
    exact ⟨space, by simp, hspace⟩
  · rintro ⟨space, rfl, hspace⟩
    exact ⟨space ++ '\x7b' :: inner, by simp, space, rfl, hspace⟩

/-- A host block is a match if any brace closes behind the one that opens it. -/
theorem isSome_readBlock_iff {s : Text} :
    (readBlock s).isSome = true ↔ ∃ inner ∈ opened? s, '\x7d' ∈ inner := by
  constructor
  · intro h
    obtain ⟨⟨out, rest⟩, h⟩ := Option.isSome_iff_exists.1 h
    obtain ⟨space, body, rfl, hspace, _, _⟩ := readBlock_eq_some_iff.1 h
    exact ⟨body ++ '\x7d' :: rest, opened?_eq_some_iff.2 ⟨space, by simp, hspace⟩, by simp⟩
  · rintro ⟨inner, hopened, hclosed⟩
    obtain ⟨space, rfl, hspace⟩ := opened?_eq_some_iff.1 hopened
    exact isSome_readBlock hspace hclosed

theorem matchesIn_block_iff {s : Text} :
    block.matchesIn s = true ↔ ∃ v ∈ s.tails, ∃ inner ∈ opened? v, '\x7d' ∈ inner := by
  simp only [Pattern.matchesIn_iff, List.mem_tails, ← isSome_readBlock_iff]
  constructor
  · rintro ⟨u, v, rfl, _, hread⟩
    exact ⟨v, List.suffix_append u v, hread⟩
  · rintro ⟨v, ⟨u, rfl⟩, hread⟩
    refine ⟨u, v, rfl, ?_, hread⟩
    rintro rfl
    cases hread

/-- Unwrapping leaves a text as it is if and only if no brace closes behind a host block that
opens.  It makes no difference whether other braces open in between. -/
theorem text_unwrap_eq_self_iff {s : Text} :
    (unwrap s).text = s ↔ ∀ v ∈ s.tails, ∀ inner ∈ opened? v, '\x7d' ∉ inner := by
  change block.replaceAll s = s ↔ _
  rw [shrinks_block.replaceAll_eq_self_iff, ← Bool.not_eq_true, matchesIn_block_iff]
  push Not
  rfl

/-- In every host block of this text another block opens before one closes, and still the host
block is unwrapped, with the brace of the inner block taken for its own. -/
theorem unwrap_takes_inner_brace :
    let s := ":host \x7b .a \x7b b: c \x7d \x7d".toList
    (∀ v ∈ s.tails, ∀ inner ∈ opened? v, '\x7b' ∈ inner.takeWhile (· ≠ '\x7d')) ∧
      (unwrap s).text = ".a \x7b b: c \x7d".toList ∧ ".a \x7b b: c \x7d".toList ≠ s := by
  decide +kernel

/-! ## Blocks under a selector -/

theorem dropEnd_host (u : Text) {space : Text} (hspace : ∀ c ∈ space, isSpace c = true) :
    dropEnd isSpace (u ++ hostSelector ++ space) = u ++ hostSelector := by
  rw [dropEnd_append_of_all hspace]
  have hend := dropEnd_append_cons (p := isSpace) (c := 't') (by decide)
    (u ++ [':', 'h', 'o', 's']) []
  simpa [hostSelector, dropEnd] using hend

/-- In front of the only brace of a text that opens, a host block opens only if all that stands
there is `:host` and white space behind it. -/
theorem opened?_append_brace {t r : Text} (ht : '\x7b' ∉ t) (hr : '\x7b' ∉ r) :
    opened? (t ++ '\x7b' :: r) = if dropEnd isSpace t = hostSelector then some r else none := by
  ext inner
  rw [opened?_eq_some_iff]
  constructor
  · rintro ⟨space, hsplit, hspace⟩
    obtain ⟨rfl, _, rfl⟩ := (List.append_cons_inj_of_notMem ht hr).1 hsplit
    rw [if_pos]
    exact dropEnd_host [] hspace
  · intro h
    split at h
    · rename_i hend
      obtain rfl := Option.some.inj h
      obtain ⟨space, rfl, hspace⟩ := exists_append_of_dropEnd hend
      exact ⟨space, rfl, hspace⟩
    · cases h

/-- In a text with one brace that opens, a host block opens if `:host` stands in front of that
brace, with white space at most in between. -/
theorem matchesIn_block_of_brace {t r : Text} (ht : '\x7b' ∉ t) (hr : '\x7b' ∉ r) :
    block.matchesIn (t ++ '\x7b' :: r) = true ↔
      hostSelector <:+ dropEnd isSpace t ∧ '\x7d' ∈ r := by
  rw [matchesIn_block_iff]
  constructor
  · rintro ⟨v, hv, inner, hopened, hclosed⟩
    obtain ⟨u, hu⟩ := (List.mem_tails v _).1 hv
    obtain ⟨space, rfl, hspace⟩ := opened?_eq_some_iff.1 hopened
    rw [← List.append_assoc, ← List.append_assoc] at hu
    obtain ⟨rfl, _, rfl⟩ := (List.append_cons_inj_of_notMem ht hr).1 hu.symm
    rw [dropEnd_host u hspace]
    exact ⟨List.suffix_append u hostSelector, hclosed⟩
  · rintro ⟨⟨u, hu⟩, hclosed⟩
    obtain ⟨space, rfl, hspace⟩ := exists_append_of_dropEnd hu.symm
    refine ⟨hostSelector ++ space ++ '\x7b' :: r, ?_, r, ?_, hclosed⟩
    · rw [List.mem_tails]
      exact ⟨u, by simp⟩
    · exact opened?_eq_some_iff.2 ⟨space, rfl, hspace⟩

/-- Of several `:host` in front of the brace the last one counts: between another and the brace
stands more than white space. -/
theorem replaceAll_block_of_brace {u space body : Text} (hspace : ∀ c ∈ space, isSpace c = true)
    (hu : '\x7b' ∉ u) (hopen : '\x7b' ∉ body) (hclose : '\x7d' ∉ body) :
    block.replaceAll (u ++ (hostSelector ++ space ++ '\x7b' :: (body ++ ['\x7d']))) =
      u ++ contents body := by
  have hread : block.read (hostSelector ++ space ++ '\x7b' :: (body ++ ['\x7d'])) =
      some (contents body, []) :=
    readBlock_eq_some_iff.2 ⟨space, body, by simp, hspace, hclose, rfl⟩
  have hskip : ∀ t, t <:+ u → t ≠ [] →
      block.read (t ++ (hostSelector ++ space ++ '\x7b' :: (body ++ ['\x7d']))) = none := by
    intro t ht hne
    have hfront : '\x7b' ∉ t ++ hostSelector ++ space := by
      simp only [List.mem_append, not_or]
      refine ⟨⟨fun h => hu (ht.subset h), by decide⟩, fun h => ?_⟩
      cases hspace _ h
    have hopened := opened?_append_brace (r := body ++ ['\x7d']) hfront (by simpa using hopen)
    rw [dropEnd_host t hspace, if_neg (by simpa using hne)] at hopened
    by_contra hsome
    obtain ⟨inner, hinner, _⟩ := isSome_readBlock_iff.1 (Option.isSome_iff_ne_none.2 hsome)
    rw [← List.append_assoc, ← List.append_assoc, hopened] at hinner
    cases hinner
  rw [Pattern.replaceAll_append_of_read_eq_none hskip]
  congr 1
  have hreplace := Pattern.replaceAll_of_read hread
  rwa [Pattern.replaceAll_nil, List.append_nil] at hreplace

/-- A block under a selector is unwrapped if and only if the selector ends in `:host`, white space
aside.  What stands in front of that is left in front of the contents. -/
theorem unwrap_behind_selector {selector body : Text} (hselector : '\x7b' ∉ selector)
    (hopen : '\x7b' ∉ body) (hclose : '\x7d' ∉ body) :
    (¬hostSelector <:+ dropEnd isSpace selector →
        unwrap (selector ++ ' ' :: '\x7b' :: body ++ ['\x7d']) =
          .unchanged (selector ++ ' ' :: '\x7b' :: body ++ ['\x7d'])) ∧
      ∀ u, dropEnd isSpace selector = u ++ hostSelector →
        unwrap (selector ++ ' ' :: '\x7b' :: body ++ ['\x7d']) = ⟨u ++ contents body, true⟩ := by
  have hblank : ∀ c ∈ [' '], isSpace c = true := by simp [isSpace]
  have hmatches := matchesIn_block_of_brace (t := selector ++ [' ']) (r := body ++ ['\x7d'])
    (by simpa using hselector) (by simpa using hopen)
  have htext : selector ++ [' '] ++ '\x7b' :: (body ++ ['\x7d']) =
      selector ++ ' ' :: '\x7b' :: body ++ ['\x7d'] := by simp
  rw [dropEnd_append_of_all hblank, htext] at hmatches
  constructor
  · intro hnot
    have hnone : block.matchesIn (selector ++ ' ' :: '\x7b' :: body ++ ['\x7d']) = false := by
      rw [← Bool.not_eq_true, hmatches]
      exact fun h => hnot h.1
    rw [unwrap, Pattern.rewrite, Pattern.replaceAll_of_matchesIn_eq_false hnone, hnone]
    rfl
  · intro u hu
    rw [unwrap, Pattern.rewrite, hmatches.2 ⟨⟨u, hu.symm⟩, by simp⟩]
    obtain ⟨space, rfl, hspace⟩ := exists_append_of_dropEnd hu
    have hblanks : ∀ c ∈ space ++ [' '], isSpace c = true :=
      List.forall_mem_append.2 ⟨hspace, hblank⟩
    have hreplace := replaceAll_block_of_brace (u := u) hblanks
      (fun h => hselector (by simp [h])) hopen hclose
    rw [← hreplace]
    simp

/-- A list of selectors with a block that stays, and a descendant whose block goes. -/
theorem unwrap_behind_selector_descendant :
    let stays := ":host, .a".toList
    let goes := ".a > :host\n".toList
    let body := " b: c; ".toList
    ('\x7b' ∉ stays ∧ '\x7b' ∉ goes ∧ '\x7b' ∉ body ∧ '\x7d' ∉ body) ∧
      unwrap (stays ++ ' ' :: '\x7b' :: body ++ ['\x7d']) =
        .unchanged ":host, .a \x7b b: c; \x7d".toList ∧
      unwrap (goes ++ ' ' :: '\x7b' :: body ++ ['\x7d']) = ⟨".a > b: c;".toList, true⟩ := by
  intro stays goes body
  have hopen : '\x7b' ∉ body := by decide
  have hclose : '\x7d' ∉ body := by decide
  have hstays : '\x7b' ∉ stays := by decide
  have hgoes : '\x7b' ∉ goes := by decide
  have hcontents : ".a > ".toList ++ contents body = ".a > b: c;".toList := by decide +kernel
  have hunchanged := (unwrap_behind_selector hstays hopen hclose).1 (by decide +kernel)
  have hunwrapped := (unwrap_behind_selector hgoes hopen hclose).2 ".a > ".toList
    (by decide +kernel)
  rw [hcontents] at hunwrapped
  exact ⟨⟨hstays, hgoes, hopen, hclose⟩, hunchanged, hunwrapped⟩

/-- The selector of this block is not `:host` alone, and still the block is unwrapped: a class is
left in front of the declaration. -/
theorem unwrap_takes_descendant :
    let selector := ".a :host".toList
    let body := "b: c".toList
    ('\x7b' ∉ selector ∧ '\x7d' ∉ selector ∧ ';' ∉ selector ∧
        occursIn "/*".toList selector = false ∧ Selector.isHostOnly selector = false) ∧
      ('\x7b' ∉ body ∧ '\x7d' ∉ body ∧ Selector.mentionsHost body = false) ∧
      (unwrap (selector ++ " \x7b".toList ++ body ++ "\x7d".toList)).text = ".a b: c".toList ∧
      ".a b: c".toList ≠ selector ++ " \x7b".toList ++ body ++ "\x7d".toList := by
  decide +kernel

end HostBlock

end HostSheet
