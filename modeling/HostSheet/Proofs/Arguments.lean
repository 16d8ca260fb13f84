import Mathlib
import HostSheet.Proofs.Unwrapping

set_option autoImplicit false

/-!
# The argument of the host

`:host(argument)` turns into the host tag and the argument.  The pattern does not know that
brackets nest: its argument ends at the first bracket that closes (`replaceAll_hostFunction`).
So of an argument with brackets of its own the first closing one goes, and the one behind the
argument stays in its place.  The whole argument is left exactly if nothing but closing brackets
stands behind the first one (`rewriteHost_argument_iff`).
-/

namespace HostSheet

open Text

theorem clear_of_mentionsHost_eq_false {t : Text} (h : Selector.mentionsHost t = false) :
    Clear t [] := by
  induction t with
  | nil => trivial
  | cons c t ih =>
    rw [Selector.mentionsHost, occursIn, Bool.or_eq_false_iff] at h
    refine ⟨?_, ih h.2⟩
    rw [List.append_nil, ← List.isPrefixOf_iff_prefix, h.1]
    exact Bool.false_ne_true

/-- A character that `:host` does not have may stand anywhere in a clear text. -/
theorem Clear.insert {t w : Text} (h : Clear (t ++ w) []) {d : Char} (hd : d ∉ hostSelector) :
    Clear (t ++ d :: w) [] := by
  obtain ⟨ht, hw⟩ := clear_append_iff.1 h
  refine clear_append_iff.2 ⟨ht.replace hd _, ?_, hw⟩
  rintro ⟨r, hr⟩
  obtain rfl : ':' = d := (List.cons.inj hr).1
  exact hd List.mem_cons_self

namespace Selector

variable {o : Options}

/-- The form `:host(argument)` at the front of a text.  Its argument ends at the first bracket
that closes. -/
theorem replaceAll_hostFunction (o : Options) {argument rest : Text} (hn : ')' ∉ argument)
    (hrest : Clear rest []) :
    (hostFunction o).replaceAll (hostSelector ++ '(' :: argument ++ ')' :: rest) =
      o.hostTag ++ (remapAttributes o argument).text ++ rest := by
  have hread : (hostFunction o).read (hostSelector ++ '(' :: argument ++ ')' :: rest) =
      some (o.hostTag ++ (remapAttributes o argument).text, rest) :=
    readHostFunction_eq_some_iff.2 ⟨argument, rfl, hn, rfl⟩
  have hreplace := Pattern.replaceAll_of_read hread
  rw [replaceAll_of_clear (fun _ => isPrefix_of_readHostFunction) hrest] at hreplace
  exact hreplace

/-- Where the form `:host [content]` is rewritten, the first character that changes is the colon
in front of it. -/
theorem dents_hostDescendant (htag : o.hostTag = ['&']) (s : Text) :
    Dents s ((hostDescendant o).replaceAll s) := by
  refine dents_replaceAll (fun _ => isPrefix_of_readHostDescendant) ?_ s
  intro s out rest h
  obtain ⟨space, content, _, _, _, _, rfl⟩ := readHostDescendant_eq_some_iff.1 h
  exact ⟨_, by rw [htag]; rfl⟩

/-! ## Brackets in the argument -/

/-- A bracket can only move to the front of a text that holds nothing but such brackets. -/
theorem forall_eq_of_dents {v post : Text} (h : Dents (v ++ ')' :: post) (')' :: (v ++ post))) :
    ∀ c ∈ v, c = ')' := by
  induction v with
  | nil => exact fun c hc => absurd hc List.not_mem_nil
  | cons c v ih =>
    obtain ⟨rfl, hv⟩ | ⟨_, hc⟩ := dents_cons_iff.1 h
    · exact List.forall_mem_cons.2 ⟨rfl, ih hv⟩
    · cases hc

theorem append_cons_of_forall_eq {a : Char} {v : Text} (h : ∀ c ∈ v, c = a) (post : Text) :
    v ++ a :: post = a :: (v ++ post) := by
  induction v with
  | nil => rfl
  | cons c v ih =>
    obtain ⟨rfl, hv⟩ := List.forall_mem_cons.1 h
    rw [List.cons_append, ih hv]
    rfl

/-- With attributes left as they are, `:host(argument)` turns into the host tag and the argument,
and the form `:host [content]` is looked for in what that gives. -/
theorem text_rewriteHost (hdata : o.dataAttributes = false) {argument rest : Text}
    (hn : ')' ∉ argument) (hrest : Clear rest []) :
    (rewriteHost o (hostSelector ++ '(' :: argument ++ ')' :: rest)).text =
      (hostDescendant o).replaceAll (o.hostTag ++ argument ++ rest) := by
  change (hostDescendant o).replaceAll ((hostFunction o).replaceAll _) = _
  rw [replaceAll_hostFunction o hn hrest, remapAttributes, hdata]
  rfl

/-- With `&` for the host and attributes left as they are, `:host(argument)` turns into the host
tag and the whole argument if and only if from its first closing bracket on the argument has
closing brackets only.  It is not enough that the brackets of the argument pair up. -/
theorem rewriteHost_argument_iff (htag : o.hostTag = ['&']) (hdata : o.dataAttributes = false)
    {argument post : Text} (hclear : mentionsHost (argument ++ post) = false) :
    (rewriteHost o (hostSelector ++ '(' :: argument ++ ')' :: post)).text =
        '&' :: argument ++ post ↔
      ∀ c ∈ argument.dropWhile (· ≠ ')'), c = ')' := by
  replace hclear := clear_of_mentionsHost_eq_false hclear
  have hstays : (hostDescendant o).replaceAll ('&' :: argument ++ post) =
      '&' :: argument ++ post :=
    replaceAll_of_clear (fun _ => isPrefix_of_readHostDescendant)
      (hclear.insert (t := []) (d := '&') (by decide))
  by_cases hmem : ')' ∈ argument
  · obtain ⟨u, v, rfl, hu⟩ := List.eq_append_cons_of_mem hmem
    have hbehind : (u ++ ')' :: v).dropWhile (· ≠ ')') = ')' :: v := by
      refine dropWhile_run (fun c hc => ?_) (by simp)
      simpa using ne_of_mem_of_not_mem hc hu
    have hwhole : '&' :: (u ++ ')' :: v) ++ post = '&' :: u ++ ')' :: (v ++ post) := by simp
    -- Cut off at its first closing bracket, the argument leaves its rest behind the match.
    have htext : (rewriteHost o (hostSelector ++ '(' :: (u ++ ')' :: v) ++ ')' :: post)).text =
        (hostDescendant o).replaceAll ('&' :: u ++ (v ++ ')' :: post)) := by
      have hrest : Clear (v ++ post) [] := by
        rw [List.append_assoc, List.cons_append] at hclear
        exact (clear_append_iff.1 hclear).2.2
      have hcut := text_rewriteHost hdata hu (hrest.insert (d := ')') (by decide))
      rw [htag] at hcut
      simpa using hcut
    rw [hbehind, List.forall_mem_cons, and_iff_right rfl, htext]
    constructor
    · intro heq
      have hdents := dents_hostDescendant htag ('&' :: u ++ (v ++ ')' :: post))
      rw [heq, hwhole] at hdents
      exact forall_eq_of_dents hdents.cancel
    · intro hclosing
      rw [append_cons_of_forall_eq hclosing, ← hwhole]
      exact hstays
  · have hnone : argument.dropWhile (· ≠ ')') = [] :=
      List.dropWhile_eq_nil_iff.2 fun c hc => by simpa using ne_of_mem_of_not_mem hc hmem
    rw [hnone, text_rewriteHost hdata hmem (clear_append_iff.1 hclear).2, htag]
    exact iff_of_true hstays nofun

/-- An argument whose brackets nest, with nothing behind the inner ones. -/
theorem rewriteHost_argument_iff_nested :
    let o : Options := { layerName := some "base".toList }
    let argument := ":not(:is(.a, .b))".toList
    let post := " [c]".toList
    o.hostTag = ['&'] ∧ o.dataAttributes = false ∧ mentionsHost (argument ++ post) = false ∧
      (rewriteHost o (hostSelector ++ '(' :: argument ++ ')' :: post)).text =
        '&' :: argument ++ post := by
  intro o argument post
  have hhost : mentionsHost (argument ++ post) = false := by decide +kernel
  have hclosing : ∀ c ∈ argument.dropWhile (· ≠ ')'), c = ')' := by simp [argument]
  exact ⟨rfl, rfl, hhost, (rewriteHost_argument_iff (o := o) rfl rfl hhost).2 hclosing⟩

/-- The brackets of this argument pair up, but the class behind the inner ones ends up between
them. -/
theorem rewriteHost_moves_bracket :
    let argument := ":not(.a).b".toList
    let post := " .c".toList
    (∀ u ∈ argument.inits, u.count ')' ≤ u.count '(') ∧
      argument.count ')' = argument.count '(' ∧ mentionsHost (argument ++ post) = false ∧
      (rewriteHost {} (hostSelector ++ '(' :: argument ++ ')' :: post)).text =
        "&:not(.a.b) .c".toList ∧
      "&:not(.a.b) .c".toList ≠ '&' :: argument ++ post := by
  decide +kernel

end Selector

end HostSheet
