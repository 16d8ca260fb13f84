import Mathlib
import HostSheet.HostBlock

set_option autoImplicit false

/-!
# Where a pattern matches

Replacing goes through a text from left to right.  `Pattern.spans` are the places of the
matches that are replaced on the way.  A pattern is local (`Pattern.IsLocal`) if a match
depends on its own characters only.  A text can then be cut in two and replaced part by
part wherever no match crosses the cut; the two forms with `:host` are local.
-/

namespace HostSheet.Text

namespace Pattern

/-- Where the replaced matches start and end, in a text whose first character has the
offset `i`. -/
def spansFrom (p : Pattern) (i : Nat) : Text → List (Nat × Nat)
  | [] => []
  | c :: r =>
    match _h : p.read (c :: r) with
    | some (_, rest) =>
      (i, i + ((c :: r).length - rest.length)) ::
        spansFrom p (i + ((c :: r).length - rest.length)) rest
    | none => spansFrom p (i + 1) r
termination_by s => s.length
decreasing_by
  · exact p.read_shorter _h
  · simp

/-- Where the replaced matches of a text start and end. -/
def spans (p : Pattern) (s : Text) : List (Nat × Nat) := p.spansFrom 0 s

theorem spansFrom_nil (p : Pattern) (i : Nat) : p.spansFrom i [] = [] := by
  rw [spansFrom]

theorem spansFrom_of_read {p : Pattern} {i : Nat} {c : Char} {r out rest : Text}
    (h : p.read (c :: r) = some (out, rest)) :
    p.spansFrom i (c :: r) =
      (i, i + ((c :: r).length - rest.length)) ::
        p.spansFrom (i + ((c :: r).length - rest.length)) rest := by
  rw [spansFrom]; split <;> simp_all

theorem spansFrom_of_read_eq_none {p : Pattern} {i : Nat} {c : Char} {r : Text}
    (h : p.read (c :: r) = none) : p.spansFrom i (c :: r) = p.spansFrom (i + 1) r := by
  rw [spansFrom]; split <;> simp_all

/-- A match starts where the text does or later, and takes at least one character. -/
theorem bounds_of_mem_spansFrom {p : Pattern} {i : Nat} {s : Text} {m : Nat × Nat}
    (h : m ∈ p.spansFrom i s) : i ≤ m.1 ∧ m.1 < m.2 := by
  fun_induction spansFrom p i s with
  | case1 i => cases h
  | case2 i c r out rest hread ih =>
    have hlt := p.read_shorter hread
    rcases List.mem_cons.1 h with rfl | h
    · exact ⟨le_rfl, by dsimp only; omega⟩
    · have := ih h
      omega
  | case3 i c r hread ih =>
    have := ih h
    omega

/-! ## Cutting a text -/

/-- If a text that ends in `rest` has an end `v` no longer than that, `rest` ends in it. -/
theorem suffix_of_append_eq {u v w rest : Text} (h : u ++ v = w ++ rest)
    (hlen : v.length ≤ rest.length) : ∃ rest', rest = rest' ++ v ∧ u = w ++ rest' := by
  obtain ⟨x, rfl, rfl⟩ | ⟨x, rfl, rfl⟩ := List.append_eq_append_iff.1 h
  · have : x = [] := by
      rw [List.length_append] at hlen
      exact List.length_eq_zero_iff.1 (by omega)
    subst this
    exact ⟨[], by simp, by simp⟩
  · exact ⟨x, rfl, rfl⟩

/-- A match depends on its own characters only: it stays a match when the text goes on, and
it is one already in any part of the text that has all of it. -/
structure IsLocal (p : Pattern) : Prop where
  extend : ∀ {u v out rest : Text},
    p.read u = some (out, rest) → p.read (u ++ v) = some (out, rest ++ v)
  restrict : ∀ {u v out rest : Text},
    p.read (u ++ v) = some (out, rest) → v.length ≤ rest.length →
    ∃ rest', rest = rest' ++ v ∧ p.read u = some (out, rest')

/-- A pattern is local if what stands behind the characters of a match does not matter for it. -/
theorem IsLocal.of_read {p : Pattern} (matched : Text → Text → Prop)
    (h : ∀ {s out rest : Text},
      p.read s = some (out, rest) ↔ ∃ m, s = m ++ rest ∧ matched m out) : p.IsLocal where
  extend := by
    intro u v out rest hread
    obtain ⟨m, rfl, hm⟩ := h.1 hread
    exact h.2 ⟨m, List.append_assoc m rest v, hm⟩
  restrict := by
    intro u v out rest hread hlen
    obtain ⟨m, he, hm⟩ := h.1 hread
    obtain ⟨rest', rfl, rfl⟩ := suffix_of_append_eq he hlen
    exact ⟨rest', rfl, h.2 ⟨m, rfl, hm⟩⟩

/-- Where no match starts, replacing changes nothing. -/
theorem skip_of_spansFrom {p : Pattern} {u v : Text} {i : Nat}
    (h : ∀ m ∈ p.spansFrom i (u ++ v), i + u.length ≤ m.1) :
    p.replaceAll (u ++ v) = u ++ p.replaceAll v ∧
      p.spansFrom i (u ++ v) = p.spansFrom (i + u.length) v := by
  induction u generalizing i with
  | nil => exact ⟨rfl, rfl⟩
  | cons c u ih =>
    cases hread : p.read (c :: (u ++ v)) with
    | some m =>
      obtain ⟨out, rest⟩ := m
      rw [List.cons_append, spansFrom_of_read hread] at h
      have := h _ List.mem_cons_self
      simp at this
    | none =>
      rw [List.cons_append, spansFrom_of_read_eq_none hread] at h ⊢
      have hnext : ∀ m ∈ p.spansFrom (i + 1) (u ++ v), i + 1 + u.length ≤ m.1 := by
        intro m hm
        have := h m hm
        rw [List.length_cons] at this
        omega
      obtain ⟨hreplace, hspans⟩ := ih hnext
      refine ⟨?_, ?_⟩
      · rw [replaceAll_of_read_eq_none hread, hreplace]
        rfl
      · rw [hspans, List.length_cons]
        congr 1
        omega

/-- Where a local pattern does not match, it does not match in front of less text. -/
theorem IsLocal.read_eq_none {p : Pattern} (hp : p.IsLocal) {u v : Text}
    (h : p.read (u ++ v) = none) : p.read u = none := by
  cases hr : p.read u with
  | none => rfl
  | some m =>
    rw [hp.extend hr] at h
    cases h

/-- Where no match crosses a cut, the two sides are replaced on their own. -/
theorem IsLocal.cut {p : Pattern} (hp : p.IsLocal) {u v : Text} {i : Nat}
    (h : ∀ m ∈ p.spansFrom i (u ++ v), m.1 < i + u.length → m.2 ≤ i + u.length) :
    p.replaceAll (u ++ v) = p.replaceAll u ++ p.replaceAll v ∧
      p.spansFrom i (u ++ v) = p.spansFrom i u ++ p.spansFrom (i + u.length) v := by
  induction hn : u.length using Nat.strong_induction_on generalizing u i with
  | _ n ih =>
  subst hn
  cases u with
  | nil => simp [spansFrom_nil]
  | cons c u =>
    cases hread : p.read (c :: (u ++ v)) with
    | some m =>
      obtain ⟨out, rest⟩ := m
      have hlt := p.read_shorter hread
      rw [List.cons_append, spansFrom_of_read hread] at h
      have hstop := h _ List.mem_cons_self
      simp only [List.length_cons, List.length_append] at hstop hlt
      obtain ⟨rest', rfl, hread'⟩ := hp.restrict (u := c :: u) hread (by omega)
      have hlt' := p.read_shorter hread'
      have hlen : (c :: (u ++ v)).length - (rest' ++ v).length =
          (c :: u).length - rest'.length := by
        simp only [List.length_cons, List.length_append]
        omega
      rw [hlen] at h
      have hnext : ∀ m ∈ p.spansFrom (i + ((c :: u).length - rest'.length)) (rest' ++ v),
          m.1 < i + ((c :: u).length - rest'.length) + rest'.length →
          m.2 ≤ i + ((c :: u).length - rest'.length) + rest'.length := by
        intro m hm hlow
        have := h m (List.mem_cons_of_mem _ hm)
        omega
      obtain ⟨hreplace, hspans⟩ := ih _ hlt' hnext rfl
      refine ⟨?_, ?_⟩
      · rw [List.cons_append, replaceAll_of_read hread, replaceAll_of_read hread', hreplace,
          List.append_assoc]
      · rw [List.cons_append, spansFrom_of_read hread, spansFrom_of_read hread', hlen, hspans,
          List.cons_append]
        congr 3
        omega
    | none =>
      have hread' : p.read (c :: u) = none := hp.read_eq_none hread
      rw [List.cons_append, spansFrom_of_read_eq_none hread] at h
      have hnext : ∀ m ∈ p.spansFrom (i + 1) (u ++ v),
          m.1 < i + 1 + u.length → m.2 ≤ i + 1 + u.length := by
        intro m hm hlow
        have := h m hm
        rw [List.length_cons] at this
        omega
      obtain ⟨hreplace, hspans⟩ := ih u.length (by simp) hnext rfl
      refine ⟨?_, ?_⟩
      · rw [List.cons_append, replaceAll_of_read_eq_none hread,
          replaceAll_of_read_eq_none hread', hreplace, List.cons_append]
      · rw [List.cons_append, spansFrom_of_read_eq_none hread,
          spansFrom_of_read_eq_none hread', hspans]
        congr 2
        rw [List.length_cons]
        omega

/-! ## Matches and occurrences -/

/-- A match at the front of a text, however the text is written. -/
theorem replaceAll_of_read_eq_some {p : Pattern} {s out rest : Text}
    (h : p.read s = some (out, rest)) : p.replaceAll s = out ++ p.replaceAll rest := by
  cases s with
  | nil => exact absurd (p.read_shorter h) (Nat.not_lt_zero _)
  | cons c r => exact replaceAll_of_read h

/-- A pattern that matches somewhere matches at the front of an end of the text. -/
theorem matchesIn_iff {p : Pattern} {s : Text} :
    p.matchesIn s = true ↔ ∃ u v, s = u ++ v ∧ v ≠ [] ∧ (p.read v).isSome = true := by
  induction s with
  | nil =>
    constructor
    · intro h
      cases h
    · rintro ⟨u, v, h, hv, _⟩
      exact absurd (List.append_eq_nil_iff.1 h.symm).2 hv
  | cons c r ih =>
    rw [matchesIn, Bool.or_eq_true, ih]
    constructor
    · rintro (h | ⟨u, v, rfl, hv, h⟩)
      · exact ⟨[], c :: r, rfl, by simp, h⟩
      · exact ⟨c :: u, v, rfl, hv, h⟩
    · rintro ⟨u, v, he, hv, h⟩
      cases u with
      | nil =>
        rw [List.nil_append] at he
        exact .inl (he ▸ h)
      | cons d u =>
        obtain ⟨rfl, rfl⟩ := List.cons.inj he
        exact .inr ⟨u, v, rfl, hv, h⟩

/-- Where a local pattern does not match, it does not match in any part either. -/
theorem IsLocal.matchesIn_eq_false {p : Pattern} (hp : p.IsLocal) {u v w : Text}
    (h : p.matchesIn (u ++ v ++ w) = false) : p.matchesIn v = false := by
  by_contra hv
  obtain ⟨a, b, rfl, hb, hread⟩ := matchesIn_iff.1 (by simpa using hv)
  obtain ⟨⟨out, rest⟩, hread⟩ := Option.isSome_iff_exists.1 hread
  have hall : p.matchesIn (u ++ (a ++ b) ++ w) = true :=
    matchesIn_iff.2 ⟨u ++ a, b ++ w, by simp, by simp [hb],
      Option.isSome_iff_exists.2 ⟨_, hp.extend hread⟩⟩
  rw [h] at hall
  cases hall

end Pattern

/-! ## Runs of characters -/

/-- A run ends where the text goes on with a character that does not belong to it. -/
theorem takeWhile_run {p : Char → Bool} {u v : Text} (hu : ∀ c ∈ u, p c = true)
    (hv : ∀ c, v.head? = some c → p c = false) : (u ++ v).takeWhile p = u := by
  rw [List.takeWhile_append_of_pos hu]
  cases v with
  | nil => simp
  | cons d r => simp [hv d rfl]

theorem dropWhile_run {p : Char → Bool} {u v : Text} (hu : ∀ c ∈ u, p c = true)
    (hv : ∀ c, v.head? = some c → p c = false) : (u ++ v).dropWhile p = v := by
  rw [List.dropWhile_append_of_pos hu]
  cases v with
  | nil => rfl
  | cons d r => simp [hv d rfl]

theorem head?_dropWhile {p : Char → Bool} {s : Text} {c : Char}
    (h : (s.dropWhile p).head? = some c) : p c = false := by
  have := List.head?_dropWhile_not p s
  rw [h] at this
  exact this

theorem splitSpace?_eq_some_iff {s space rest : Text} :
    splitSpace? s = some (space, rest) ↔
      s = space ++ rest ∧ space ≠ [] ∧ (∀ c ∈ space, isSpace c = true) ∧
        ∀ c, rest.head? = some c → isSpace c = false := by
  unfold splitSpace?
  constructor
  · intro h
    cases hs : s.takeWhile isSpace with
    | nil => rw [hs] at h; cases h
    | cons c r =>
      rw [hs] at h
      obtain ⟨rfl, rfl⟩ := by simpa using h
      rw [← hs]
      exact ⟨List.takeWhile_append_dropWhile.symm, by simp [hs],
        fun d hd => List.mem_takeWhile_imp hd, fun d hd => head?_dropWhile hd⟩
  · rintro ⟨rfl, hne, hspace, hrest⟩
    rw [takeWhile_run hspace hrest, dropWhile_run hspace hrest]
    cases space with
    | nil => exact absurd rfl hne
    | cons c r => rfl

end HostSheet.Text

namespace HostSheet.Selector

open Text

/-! ## The forms with `:host` -/

/-- A match of `:host(argument)` is this text. -/
theorem readHostFunction_eq_some_iff {o : Options} {s out rest : Text} :
    readHostFunction o s = some (out, rest) ↔
      ∃ argument, s = hostSelector ++ '(' :: argument ++ ')' :: rest ∧ ')' ∉ argument ∧
        out = o.hostTag ++ (remapAttributes o argument).text := by
  simp only [readHostFunction, Option.bind_eq_bind, Option.bind_eq_some_iff, Prod.exists,
    Option.pure_def, Option.some.injEq, Prod.mk.injEq, after?_eq_some_iff,
    upTo?_eq_some_iff]
  constructor
  · rintro ⟨r, rfl, argument, rest', ⟨rfl, hn⟩, rfl, rfl⟩
    exact ⟨argument, by simp, hn, rfl⟩
  · rintro ⟨argument, rfl, hn, rfl⟩
    exact ⟨argument ++ ')' :: rest, by simp, argument, rest, ⟨rfl, hn⟩, rfl, rfl⟩

/-- A match of `:host [content]` is this text. -/
theorem readHostDescendant_eq_some_iff {o : Options} {s out rest : Text} :
    readHostDescendant o s = some (out, rest) ↔
      ∃ space content, s = hostSelector ++ space ++ '[' :: content ++ ']' :: rest ∧
        space ≠ [] ∧ (∀ c ∈ space, isSpace c = true) ∧ ']' ∉ content ∧
        out = o.hostTag ++ [' ', '['] ++
          (if o.dataAttributes then remapFirstName o.excluded content else content) ++
          [']'] := by
  simp only [readHostDescendant, Option.bind_eq_bind, Option.bind_eq_some_iff, Prod.exists,
    Option.pure_def, Option.some.injEq, Prod.mk.injEq, after?_eq_some_iff,
    upTo?_eq_some_iff, splitSpace?_eq_some_iff]
  constructor
  · rintro ⟨r, rfl, space, inner, ⟨rfl, hne, hspace, _⟩, inner', rfl, content, rest',
      ⟨rfl, hn⟩, rfl, rfl⟩
    exact ⟨space, content, by simp, hne, hspace, hn, rfl⟩
  · rintro ⟨space, content, rfl, hne, hspace, hn, rfl⟩
    refine ⟨space ++ '[' :: content ++ ']' :: rest, by simp, space,
      '[' :: content ++ ']' :: rest, ⟨by simp, hne, hspace, ?_⟩,
      content ++ ']' :: rest, by simp, content, rest, ⟨rfl, hn⟩, rfl, rfl⟩
    intro c hc
    obtain rfl : '[' = c := by simpa using hc
    decide

theorem isLocal_hostFunction (o : Options) : (hostFunction o).IsLocal := by
  refine .of_read (fun m out => ∃ argument, m = hostSelector ++ '(' :: argument ++ [')'] ∧
    ')' ∉ argument ∧ out = o.hostTag ++ (remapAttributes o argument).text) ?_
  intro s out rest
  refine readHostFunction_eq_some_iff.trans ⟨?_, ?_⟩
  · rintro ⟨argument, rfl, hn, rfl⟩
    exact ⟨_, by simp, argument, rfl, hn, rfl⟩
  · rintro ⟨m, rfl, argument, rfl, hn, rfl⟩
    exact ⟨argument, by simp, hn, rfl⟩

theorem isLocal_hostDescendant (o : Options) : (hostDescendant o).IsLocal := by
  refine .of_read (fun m out => ∃ space content,
    m = hostSelector ++ space ++ '[' :: content ++ [']'] ∧ space ≠ [] ∧
      (∀ c ∈ space, isSpace c = true) ∧ ']' ∉ content ∧ out = o.hostTag ++ [' ', '['] ++
        (if o.dataAttributes then remapFirstName o.excluded content else content) ++ [']']) ?_
  intro s out rest
  refine readHostDescendant_eq_some_iff.trans ⟨?_, ?_⟩
  · rintro ⟨space, content, rfl, hne, hspace, hn, rfl⟩
    exact ⟨_, by simp, space, content, rfl, hne, hspace, hn, rfl⟩
  · rintro ⟨m, rfl, space, content, rfl, hne, hspace, hn, rfl⟩
    exact ⟨space, content, by simp, hne, hspace, hn, rfl⟩

theorem isPrefix_of_readHostFunction {o : Options} {s : Text}
    (h : ((hostFunction o).read s).isSome = true) : hostSelector <+: s := by
  obtain ⟨⟨out, rest⟩, h⟩ := Option.isSome_iff_exists.1 h
  obtain ⟨argument, rfl, _⟩ := readHostFunction_eq_some_iff.1 h
  exact ⟨'(' :: argument ++ ')' :: rest, by simp⟩

theorem isPrefix_of_readHostDescendant {o : Options} {s : Text}
    (h : ((hostDescendant o).read s).isSome = true) : hostSelector <+: s := by
  obtain ⟨⟨out, rest⟩, h⟩ := Option.isSome_iff_exists.1 h
  obtain ⟨space, content, rfl, _⟩ := readHostDescendant_eq_some_iff.1 h
  exact ⟨space ++ '[' :: content ++ ']' :: rest, by simp⟩

/-- A pattern whose matches start with `:host` matches only where `:host` occurs. -/
theorem mentionsHost_of_matchesIn {p : Pattern} {s : Text}
    (hp : ∀ v, (p.read v).isSome = true → hostSelector <+: v) (h : p.matchesIn s = true) :
    mentionsHost s = true := by
  obtain ⟨u, v, rfl, _, hv⟩ := Pattern.matchesIn_iff.1 h
  obtain ⟨w, rfl⟩ := hp v hv
  rw [mentionsHost, occursIn_iff]
  exact ⟨u, w, by simp⟩

/-- A selector without `:host` is not changed by the forms with `:host`. -/
theorem rewriteHost_of_mentionsHost_eq_false {o : Options} {s : Text}
    (h : mentionsHost s = false) : rewriteHost o s = .unchanged s := by
  have hfunction : (hostFunction o).matchesIn s = false := by
    by_contra hm
    rw [mentionsHost_of_matchesIn (fun _ => isPrefix_of_readHostFunction) (by simpa using hm)]
      at h
    cases h
  have hdescendant : (hostDescendant o).matchesIn s = false := by
    by_contra hm
    rw [mentionsHost_of_matchesIn (fun _ => isPrefix_of_readHostDescendant)
      (by simpa using hm)] at h
    cases h
  simp [rewriteHost, Pattern.rewrite, Rewritten.andThen, Rewritten.unchanged, hfunction,
    hdescendant, Pattern.replaceAll_of_matchesIn_eq_false]

/-- A text in which neither form matches stays as it is. -/
theorem text_rewriteHost_of_matched_eq_false {o : Options} {s : Text}
    (h : (rewriteHost o s).matched = false) : (rewriteHost o s).text = s := by
  simp only [rewriteHost, Pattern.rewrite, Rewritten.andThen, Bool.or_eq_false_iff] at h ⊢
  have hfirst := Pattern.replaceAll_of_matchesIn_eq_false h.1
  rw [hfirst] at h ⊢
  exact Pattern.replaceAll_of_matchesIn_eq_false h.2

end HostSheet.Selector

namespace HostSheet.HostBlock

open Text

/-! ## Host blocks -/

/-- A brace behind white space. -/
theorem dropStart_eq_brace_iff {r inner : Text} :
    dropStart isSpace r = '\x7b' :: inner ↔
      ∃ space, r = space ++ '\x7b' :: inner ∧ ∀ c ∈ space, isSpace c = true := by
  constructor
  · intro hinner
    refine ⟨r.takeWhile isSpace, ?_, fun c hc => List.mem_takeWhile_imp hc⟩
    rw [← hinner]
    exact List.takeWhile_append_dropWhile.symm
  · rintro ⟨space, rfl, hspace⟩
    rw [dropStart, dropWhile_run hspace]
    intro c hc
    obtain rfl : '\x7b' = c := by simpa using hc
    decide

/-- A match of a host block is this text. -/
theorem readBlock_eq_some_iff {s out rest : Text} :
    readBlock s = some (out, rest) ↔
      ∃ space body, s = hostSelector ++ space ++ '\x7b' :: body ++ '\x7d' :: rest ∧
        (∀ c ∈ space, isSpace c = true) ∧ '\x7d' ∉ body ∧ out = contents body := by
  simp only [readBlock, Option.bind_eq_bind, Option.bind_eq_some_iff, Prod.exists,
    Option.pure_def, Option.some.injEq, Prod.mk.injEq, after?_eq_some_iff,
    upTo?_eq_some_iff, List.singleton_append, dropStart_eq_brace_iff]
  constructor
  · rintro ⟨_, rfl, _, ⟨space, rfl, hspace⟩, body, rest', ⟨rfl, hn⟩, rfl, rfl⟩
    exact ⟨space, body, by simp, hspace, hn, rfl⟩
  · rintro ⟨space, body, rfl, hspace, hn, rfl⟩
    exact ⟨space ++ '\x7b' :: body ++ '\x7d' :: rest, by simp, body ++ '\x7d' :: rest,
      ⟨space, by simp, hspace⟩, body, rest, ⟨rfl, hn⟩, rfl, rfl⟩

theorem isLocal_block : block.IsLocal := by
  refine .of_read (fun m out => ∃ space body,
    m = hostSelector ++ space ++ '\x7b' :: body ++ ['\x7d'] ∧ (∀ c ∈ space, isSpace c = true) ∧
      '\x7d' ∉ body ∧ out = contents body) ?_
  intro s out rest
  refine readBlock_eq_some_iff.trans ⟨?_, ?_⟩
  · rintro ⟨space, body, rfl, hspace, hn, rfl⟩
    exact ⟨_, by simp, space, body, rfl, hspace, hn, rfl⟩
  · rintro ⟨m, rfl, space, body, rfl, hspace, hn, rfl⟩
    exact ⟨space, body, by simp, hspace, hn, rfl⟩

/-- `:host` and a block are a match, whatever is in the block. -/
theorem isSome_readBlock {space inner : Text} (hspace : ∀ c ∈ space, isSpace c = true)
    (h : '\x7d' ∈ inner) :
    (readBlock (hostSelector ++ space ++ '\x7b' :: inner)).isSome = true := by
  obtain ⟨body, rest, rfl, hn⟩ := List.eq_append_cons_of_mem h
  exact Option.isSome_iff_exists.2 ⟨(contents body, rest),
    readBlock_eq_some_iff.2 ⟨space, body, by simp, hspace, hn, rfl⟩⟩

end HostSheet.HostBlock
