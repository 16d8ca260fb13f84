import Mathlib
import HostSheet.Proofs.Regularity

set_option autoImplicit false

/-!
# The last semicolon of a list

A list is rewritten by a loop that stays at its place when it puts the nodes of a host rule into
the list, so the list may grow for a while.  Each turn passes a node or takes a host rule away, and
there are only so many of both: the loop ends after at most as many turns as the list has nodes at
all depths (`exists_turns`).

In every turn the flag of the list is settled anew from what the list is just then.  What comes out
can be said of the list as it was: its own flag, or that of the block its last node is unwrapped
from (`terminatedIn`).
-/

namespace HostSheet

namespace Node

/-! ## The last node that is no comment -/

theorem weight_le_of_mem {n : Node} {ns : List Node} (h : n ∈ ns) : n.weight ≤ weightOf ns := by
  induction ns with
  | nil => cases h
  | cons m ns ih =>
    rw [weightOf]
    rcases List.mem_cons.1 h with rfl | h
    · exact Nat.le_add_right _ _
    · exact (ih h).trans (Nat.le_add_left _ _)

theorem mem_of_lastNode? {n : Node} {ns : List Node} (h : lastNode? ns = some n) : n ∈ ns :=
  (List.mem_filter.1 (List.mem_of_getLast? h)).1

theorem lastNode?_append (ms ns : List Node) :
    lastNode? (ms ++ ns) = (lastNode? ns).or (lastNode? ms) := by
  rw [lastNode?, List.filter_append, List.getLast?_append]
  rfl

theorem isSome_lastNode? (ns : List Node) :
    (lastNode? ns).isSome = ns.any (!·.isComment) := by
  induction ns with
  | nil => rfl
  | cons n ns ih =>
    rw [lastNode?_cons, List.any_cons, ← ih]
    cases lastNode? ns with
    | some m => simp
    | none => cases n.isComment <;> rfl

theorem all_isComment_eq (ns : List Node) :
    ns.all isComment = (lastNode? ns).isNone := by
  rw [← Option.not_isSome, isSome_lastNode?, List.not_any_eq_all_not]
  simp

theorem lastNode?_map {f : Node → Node} (h : ∀ n, (f n).isComment = n.isComment)
    (ns : List Node) : lastNode? (ns.map f) = (lastNode? ns).map f := by
  rw [lastNode?, List.filter_map, List.getLast?_map, lastNode?]
  congr 2
  exact List.filter_congr fun n _ => by simp [h]

/-- Nodes that take the place of a host rule end in the same node, gaps aside. -/
theorem lastNode?_hoist (gap : Text) (ns : List Node) :
    (lastNode? (TreeMode.hoist gap ns)).map (withBefore []) =
      (lastNode? ns).map (withBefore []) := by
  cases ns with
  | nil => rfl
  | cons n ns =>
    rw [TreeMode.hoist, lastNode?_cons, lastNode?_cons, lastNode?_map, isComment_withBefore]
    · cases lastNode? ns with
      | some m =>
        simp only [Option.map_some, Option.some_or]
        split
        · rw [withBefore_withBefore]
        · rfl
      | none =>
        cases n.isComment with
        | true => rfl
        | false => exact congrArg some (withBefore_withBefore _ _ n)
    · intro m
      split
      · exact isComment_withBefore _ m
      · rfl

end Node

namespace TreeMode

open Node

/-! ## The flag -/

/-- Whether the last statement of a list has its semicolon when all host rules are unwrapped.  If
the list ends in a host rule that leaves more than comments, comments behind it aside, that is up
to the block of the rule, and else to the list. -/
def terminatedIn (ns : List Node) (terminated : Bool) : Bool :=
  match _h : lastNode? ns with
  | some (.rule head nodes ending) =>
    if Selector.isHostOnly head.selector && nodes.any (!·.isComment) then
      terminatedIn nodes ending.terminated
    else terminated
  | _ => terminated
termination_by weightOf ns
decreasing_by
  have hle := weight_le_of_mem (mem_of_lastNode? _h)
  rw [weight] at hle
  omega

theorem terminatedIn_of_host {ns nodes : List Node} {head : RuleHead} {ending : Ending}
    (hlast : lastNode? ns = some (.rule head nodes ending))
    (hhost : Selector.isHostOnly head.selector = true) (hany : nodes.any (!·.isComment) = true)
    (terminated : Bool) :
    terminatedIn ns terminated = terminatedIn nodes ending.terminated := by
  rw [terminatedIn]
  split
  · rename_i heq
    rw [hlast] at heq
    cases heq
    rw [hhost, hany]
    rfl
  · rename_i hnot
    exact absurd hlast (hnot _ _ _)

/-- A list that does not end in a host rule with more than comments keeps its flag. -/
theorem terminatedIn_of_forall {ns : List Node}
    (h : ∀ head nodes ending, lastNode? ns = some (.rule head nodes ending) →
      Selector.isHostOnly head.selector = true → nodes.any (!·.isComment) = false)
    (terminated : Bool) : terminatedIn ns terminated = terminated := by
  rw [terminatedIn]
  split
  · rename_i head nodes ending heq
    split
    · rename_i hhost
      rw [Bool.and_eq_true] at hhost
      rw [h head nodes ending heq hhost.1] at hhost
      cases hhost.2
    · rfl
  · rfl

/-- A list that ends like one that ends in a rule, gaps aside, ends in such a rule. -/
theorem exists_head_of_lastNode? {ms ns nodes : List Node} {head : RuleHead} {ending : Ending}
    (h : (lastNode? ms).map (withBefore []) = (lastNode? ns).map (withBefore []))
    (hlast : lastNode? ns = some (.rule head nodes ending)) :
    ∃ head' : RuleHead, lastNode? ms = some (.rule head' nodes ending) ∧
      head'.selector = head.selector := by
  rw [hlast, Option.map_some] at h
  obtain ⟨m, hm, hbare⟩ := Option.map_eq_some_iff.1 h
  cases m with
  | rule head' nodes' ending' =>
    rw [withBefore, withBefore] at hbare
    obtain ⟨hhead, rfl, rfl⟩ := Node.rule.inj hbare
    have hselector := congrArg RuleHead.selector hhead
    exact ⟨head', hm, hselector⟩
  | _ => cases hbare

/-- Of a list only its last node matters, and not the gap in front of that. -/
theorem terminatedIn_congr {ms ns : List Node}
    (h : (lastNode? ms).map (withBefore []) = (lastNode? ns).map (withBefore []))
    (terminated : Bool) : terminatedIn ms terminated = terminatedIn ns terminated := by
  by_cases hhost : ∃ head nodes ending, lastNode? ns = some (.rule head nodes ending) ∧
      Selector.isHostOnly head.selector = true ∧ nodes.any (!·.isComment) = true
  · obtain ⟨head, nodes, ending, hlast, hselector, hany⟩ := hhost
    obtain ⟨head', hlast', hsame⟩ := exists_head_of_lastNode? h hlast
    rw [terminatedIn_of_host hlast hselector hany,
      terminatedIn_of_host hlast' (hsame ▸ hselector) hany]
  · have hkeep : ∀ {ns' : List Node},
        (lastNode? ns).map (withBefore []) = (lastNode? ns').map (withBefore []) →
        terminatedIn ns' terminated = terminated := by
      intro ns' hns
      refine terminatedIn_of_forall (fun head nodes ending hlast hselector => ?_) terminated
      obtain ⟨head', hlast', hsame⟩ := exists_head_of_lastNode? hns hlast
      by_contra hany
      exact hhost ⟨head', nodes, ending, hlast', hsame ▸ hselector, by simpa using hany⟩
    rw [hkeep h.symm, hkeep rfl]

/-- The flag stays right when a host rule is replaced by its nodes. -/
theorem terminatedIn_hoist {head : RuleHead} (hhost : Selector.isHostOnly head.selector = true)
    (nodes rest : List Node) (ending : Ending) (terminated : Bool) :
    terminatedIn (hoist head.before nodes ++ rest)
        (terminatedAfter rest nodes ending terminated) =
      terminatedIn (.rule head nodes ending :: rest) terminated := by
  rw [terminatedAfter, all_isComment_eq]
  cases hrest : lastNode? rest with
  | some m =>
    -- The list ends behind the rule.
    refine terminatedIn_congr ?_ terminated
    rw [lastNode?_append, lastNode?_cons, hrest]
    rfl
  | none =>
    have hhoisted : (lastNode? (hoist head.before nodes ++ rest)).map (withBefore []) =
        (lastNode? nodes).map (withBefore []) := by
      rw [lastNode?_append, hrest, Option.none_or, lastNode?_hoist]
    have hlast : lastNode? (.rule head nodes ending :: rest) = some (.rule head nodes ending) := by
      rw [lastNode?_cons, hrest]
      rfl
    rw [terminatedIn_congr hhoisted]
    cases hany : nodes.any (!·.isComment) with
    | true => rw [terminatedIn_of_host hlast hhost hany, Option.isNone_none, Bool.true_and,
        if_pos rfl]
    | false =>
      -- Only comments are left, of the block and behind the rule.
      have hnone : lastNode? nodes = none := by
        rwa [← isSome_lastNode?, Option.isSome_eq_false_iff, Option.isNone_iff_eq_none] at hany
      have hinner : ∀ b, terminatedIn nodes b = b := terminatedIn_of_forall (by simp [hnone])
      rw [Option.isNone_none, Bool.and_false, if_neg Bool.false_ne_true, hinner,
        terminatedIn_of_forall]
      intro head' nodes' ending' heq _
      rw [hlast] at heq
      cases heq
      exact hany

/-- A node that is no host rule does not decide about the flag. -/
theorem terminatedIn_cons {n : Node} (hn : n.isHost = false) (rest : List Node)
    (terminated : Bool) : terminatedIn (n :: rest) terminated = terminatedIn rest terminated := by
  cases hrest : lastNode? rest with
  | some m =>
    refine terminatedIn_congr ?_ terminated
    rw [lastNode?_cons, hrest]
    rfl
  | none =>
    have hinner : ∀ b, terminatedIn rest b = b := terminatedIn_of_forall (by simp [hrest])
    rw [hinner, terminatedIn_of_forall]
    intro head nodes ending hlast hhost
    rw [lastNode?_cons, hrest, Option.none_or] at hlast
    split at hlast
    · cases hlast
    · obtain rfl := Option.some.inj hlast
      rw [isHost, hhost] at hn
      cases hn

/-! ## The loop -/

/-- Where the loop over a list stands: the nodes it has passed, those in front of it, and the flag
of the list. -/
structure Walk where
  passed : List Node := []
  ahead : List Node
  terminated : Bool

/-- One turn of the loop.  A host rule is taken out of the list, its nodes are put in, and the loop
stays where it is; any other node is rewritten, with all nodes inside, and passed. -/
def turn (o : Options) : Walk → Walk
  | ⟨passed, [], terminated⟩ => ⟨passed, [], terminated⟩
  | ⟨passed, .rule head nodes ending :: rest, terminated⟩ =>
    if Selector.isHostOnly head.selector then
      ⟨passed, hoist head.before nodes ++ rest, terminatedAfter rest nodes ending terminated⟩
    else ⟨passed ++ [transformNode o (.rule head nodes ending)], rest, terminated⟩
  | ⟨passed, n :: rest, terminated⟩ => ⟨passed ++ [transformNode o n], rest, terminated⟩

/-- All that a turn can do: nothing at the end of the list, and else put in the nodes of a host
rule, or pass a node. -/
theorem turn_cases (o : Options) (w : Walk) :
    w.ahead = [] ∧ turn o w = w ∨
      (∃ head nodes ending rest, Selector.isHostOnly head.selector = true ∧
        w.ahead = .rule head nodes ending :: rest ∧
        turn o w = ⟨w.passed, hoist head.before nodes ++ rest,
          terminatedAfter rest nodes ending w.terminated⟩) ∨
      ∃ n rest, n.isHost = false ∧ w.ahead = n :: rest ∧
        turn o w = ⟨w.passed ++ [transformNode o n], rest, w.terminated⟩ := by
  obtain ⟨passed, ahead, terminated⟩ := w
  cases ahead with
  | nil => exact .inl ⟨rfl, rfl⟩
  | cons n rest =>
    refine .inr ?_
    cases n with
    | rule head nodes ending =>
      cases hhost : Selector.isHostOnly head.selector with
      | true => exact .inl ⟨head, nodes, ending, rest, hhost, rfl, by rw [turn, if_pos hhost]⟩
      | false =>
        exact .inr ⟨.rule head nodes ending, rest, hhost, rfl, by rw [turn, hhost]; rfl⟩
    | _ => exact .inr ⟨_, rest, rfl, rfl, rfl⟩

/-- Each turn leaves fewer nodes in front of the loop, those inside others included. -/
theorem weightOf_ahead_turn (o : Options) {w : Walk} (h : w.ahead ≠ []) :
    weightOf (turn o w).ahead < weightOf w.ahead := by
  rcases turn_cases o w with
    ⟨hend, _⟩ | ⟨head, nodes, ending, rest, _, hahead, hturn⟩ | ⟨n, rest, _, hahead, hturn⟩
  · exact absurd hend h
  · rw [hturn, hahead]
    dsimp only
    rw [weightOf_append, weightOf_hoist, weightOf, weight]
    omega
  · rw [hturn, hahead, weightOf]
    exact Nat.lt_add_of_pos_left n.weight_pos

/-- Where the loop ends: with the nodes it has passed, and those in front of it rewritten. -/
def Walk.outcome (o : Options) (w : Walk) : Walk :=
  ⟨w.passed ++ (transformNodes o w.ahead w.terminated).1, [],
    (transformNodes o w.ahead w.terminated).2⟩

theorem Walk.outcome_of_ahead_eq_nil {o : Options} {w : Walk} (h : w.ahead = []) :
    w.outcome o = w := by
  obtain ⟨passed, ahead, terminated⟩ := w
  obtain rfl : ahead = [] := h
  simp [outcome, transformNodes]

/-- A turn does not change where the loop ends. -/
theorem outcome_turn (o : Options) (w : Walk) : (turn o w).outcome o = w.outcome o := by
  rcases turn_cases o w with
    ⟨_, hturn⟩ | ⟨head, nodes, ending, rest, hhost, hahead, hturn⟩ | ⟨n, rest, hn, hahead, hturn⟩
  · rw [hturn]
  · rw [hturn, Walk.outcome, Walk.outcome, hahead, transformNodes_host hhost]
  · rw [hturn, Walk.outcome, Walk.outcome, hahead, transformNodes_cons hn]
    simp

/-- Nor does it change the flag that the list is left with. -/
theorem terminatedIn_turn (o : Options) (w : Walk) :
    terminatedIn (turn o w).ahead (turn o w).terminated = terminatedIn w.ahead w.terminated := by
  rcases turn_cases o w with
    ⟨_, hturn⟩ | ⟨head, nodes, ending, rest, hhost, hahead, hturn⟩ | ⟨n, rest, hn, hahead, hturn⟩
  · rw [hturn]
  · rw [hturn, hahead, terminatedIn_hoist hhost]
  · rw [hturn, hahead, terminatedIn_cons hn]

/-! ## The end of the loop -/

/-- The loop ends, after at most as many turns as there are nodes in front of it. -/
theorem exists_turns (o : Options) (w : Walk) :
    ∃ k ≤ weightOf w.ahead, (turn o)^[k] w = w.outcome o := by
  induction hn : weightOf w.ahead using Nat.strong_induction_on generalizing w with
  | _ n ih =>
  subst hn
  by_cases hend : w.ahead = []
  · exact ⟨0, Nat.zero_le _, (Walk.outcome_of_ahead_eq_nil hend).symm⟩
  · have hlt := weightOf_ahead_turn o hend
    obtain ⟨k, hk, hturns⟩ := ih _ hlt (turn o w) rfl
    refine ⟨k + 1, hk.trans_lt hlt, ?_⟩
    rw [Function.iterate_succ_apply, hturns, outcome_turn]

theorem terminatedIn_turns (o : Options) (w : Walk) (k : Nat) :
    terminatedIn ((turn o)^[k] w).ahead ((turn o)^[k] w).terminated =
      terminatedIn w.ahead w.terminated := by
  induction k with
  | zero => rfl
  | succ k ih => rw [Function.iterate_succ_apply', terminatedIn_turn, ih]

/-- The loop over a list ends with the list rewritten, after at most as many turns as the list has
nodes at all depths, and the flag it leaves can be told from the list as it was. -/
theorem turns_transformNodes (o : Options) (ns : List Node) (terminated : Bool) :
    (∃ k ≤ weightOf ns, (turn o)^[k] ⟨[], ns, terminated⟩ =
        ⟨(transformNodes o ns terminated).1, [], (transformNodes o ns terminated).2⟩) ∧
      (transformNodes o ns terminated).2 = terminatedIn ns terminated := by
  obtain ⟨k, hk, hturns⟩ := exists_turns o ⟨[], ns, terminated⟩
  refine ⟨⟨k, hk, hturns⟩, ?_⟩
  have hflag := terminatedIn_turns o ⟨[], ns, terminated⟩ k
  rw [hturns, Walk.outcome, terminatedIn_of_forall (by simp [lastNode?])] at hflag
  exact hflag

end TreeMode

end HostSheet
