set_option autoImplicit false

/-!
# Depth-first search

The nodes of a finite graph reachable from some roots, in depth-first preorder. Nodes are the
numbers below a bound; other numbers are ignored.

## Main definitions

* `Visited` — the nodes seen so far and their order.
* `visit` — the search from one node.
* `depthFirst` — the search from a list of roots.
-/

namespace GrammarForge

/-- The nodes a search has seen. -/
structure Visited where
  /-- For every node, whether it has been seen. -/
  seen : Array Bool
  /-- The seen nodes in the order of discovery. -/
  order : Array Nat

namespace Visited

/-- A search of a graph with `n` nodes that has seen nothing yet. -/
def empty (n : Nat) : Visited := ⟨Array.replicate n false, #[]⟩

/-- Whether there is nothing to do at `s`: it has been seen, or it is no node. -/
def isDone (v : Visited) (s : Nat) : Bool := v.seen.getD s true

/-- Notes that `s` has been discovered. -/
def mark (v : Visited) (s : Nat) : Visited :=
  ⟨v.seen.setIfInBounds s true, v.order.push s⟩

end Visited

/-- Searches from `s`, at most `depth` nodes deep. The depth never exceeds the number of nodes
not yet seen, since every level of the search discovers one. -/
def visit (succ : Nat → List Nat) : Nat → Visited → Nat → Visited
  | 0, v, _ => v
  | depth + 1, v, s =>
    if v.isDone s then v else (succ s).foldl (visit succ depth) (v.mark s)

/-- The nodes below `n` reachable from `roots`, in the order of their discovery. -/
def depthFirst (n : Nat) (succ : Nat → List Nat) (roots : List Nat) : List Nat :=
  (roots.foldl (visit succ n) (Visited.empty n)).order.toList

end GrammarForge
