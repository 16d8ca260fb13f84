import HostSheet.Sheet

set_option autoImplicit false

/-!
# Editing at a path

A path leads from the top of a stylesheet to a node: at every step the index of a node in
the list reached so far.  A path that leaves the stylesheet, or wants to go into a node
without a block, leads nowhere, and the edit fails as a whole.
-/

namespace HostSheet

/-- The indexes on the way to a node, from the top. -/
abbrev Path := List Nat

/-- Why an edit at a path is refused. -/
inductive EditFault where
  /-- The path leads nowhere. -/
  | noNode
  /-- There is a node, but it is no style rule. -/
  | notARule
  deriving DecidableEq, Repr

namespace Node

/-- The node at a path. -/
def at? : Path → List Node → Option Node
  | [], _ => none
  | [i], ns => ns[i]?
  | i :: path, ns => do at? path (← (← ns[i]?).children?)

/-- Change the list of nodes inside the node at a path; the list itself for the empty
path. -/
def modifyIn? (f : List Node → Option (List Node)) : Path → List Node → Option (List Node)
  | [], ns => f ns
  | i :: path, ns => do
    let n ← ns[i]?
    let inner ← modifyIn? f path (← n.children?)
    return ns.set i (n.withChildren inner)

/-- Change the list in which the node at a path stands, given the node's index. -/
def modifyAround? (f : Nat → List Node → Option (List Node)) (path : Path)
    (ns : List Node) : Option (List Node) := do
  modifyIn? (f (← path.getLast?)) path.dropLast ns

end Node

namespace Sheet

/-- The node at a path. -/
def at? (s : Sheet) (path : Path) : Option Node := Node.at? path s.nodes

/-- Put another node in place of the node at a path. -/
def set? (s : Sheet) (path : Path) (n : Node) : Option Sheet := do
  let put (i : Nat) (ns : List Node) : Option (List Node) :=
    if i < ns.length then some (ns.set i n) else none
  return { s with nodes := ← Node.modifyAround? put path s.nodes }

/-- Take the node at a path away. -/
def remove? (s : Sheet) (path : Path) : Option Sheet := do
  let drop (i : Nat) (ns : List Node) : Option (List Node) :=
    if i < ns.length then some (ns.eraseIdx i) else none
  return { s with nodes := ← Node.modifyAround? drop path s.nodes }

/-- Put a node among the nodes inside the one at a path, in front of index `i`; at the end
if the index lies beyond it. -/
def insert? (s : Sheet) (path : Path) (i : Nat) (n : Node) : Option Sheet := do
  let put (ns : List Node) : Option (List Node) := some (ns.take i ++ n :: ns.drop i)
  return { s with nodes := ← Node.modifyIn? put path s.nodes }

/-- Put a node behind the nodes inside the one at a path. -/
def append? (s : Sheet) (path : Path) (n : Node) : Option Sheet := do
  return { s with nodes := ← Node.modifyIn? (fun ns => some (ns ++ [n])) path s.nodes }

end Sheet

end HostSheet
