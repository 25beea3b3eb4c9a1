import GrammarForge.Grammar.Tree
import GrammarForge.Options

set_option autoImplicit false

/-!
# Minimum size

The least number of tokens that an expansion can match, where `unbounded` stands for an
expansion that matches nothing at all. A node that is met again while it is being measured
counts as unbounded, since going round adds nothing to the least size.

## Main definitions

* `Grammar.sizeWithin` — the measure, down to a depth.
* `Grammar.minimumSize` — the least number of tokens of an expansion.
-/

namespace GrammarForge

/-- A step of measuring; the state has the nodes that are being measured. -/
abbrev Measuring (α : Type) := StateM (List NodeId) α

namespace Grammar

/-- Measures a node, unless it is being measured already. -/
def measuring (id : NodeId) (w : Measuring Nat) : Measuring Nat := do
  if (← get).contains id then return unbounded
  else
    modify (id :: ·)
    let size ← w
    modify List.tail
    return size

/-- The least size of several alternatives and of what is known already. The second argument of
`size` is a size beyond which the exact value does not matter. -/
def leastSize (size : NodeId → Nat → Measuring Nat) : Nat → List NodeId → Measuring Nat
  | least, [] => return least
  | least, id :: ids => do
    if least = 0 then return least
    else
      let n ← size id least
      leastSize size (min least n) ids

/-- The size of several units in a row, added to `total`. Sums beyond `cap` need not be exact;
an unbounded unit makes the sum unbounded. -/
def totalSize (size : NodeId → Nat → Measuring Nat) (cap : Nat) :
    Nat → List NodeId → Measuring Nat
  | total, [] => return total
  | total, id :: ids => do
    let n ← size id unbounded
    if total = unbounded || n = unbounded then totalSize size cap unbounded ids
    else
      let sum := min (total + n) unbounded
      if cap < sum then return sum else totalSize size cap sum ids

/-- The least number of tokens of an expansion, down to a depth; sizes beyond `cap` need not be
exact. -/
def sizeWithin (g : Grammar) : Nat → NodeId → Nat → Measuring Nat
  | 0, _, _ => return unbounded
  | depth + 1, id, cap =>
    measuring id <|
      match g.kind id with
      | .token _ => return 1
      | .nonterminal _ p =>
        match p.bind g.body with
        | some root => g.sizeWithin depth root unbounded
        | none => return unbounded
      | .choice alternatives => leastSize (g.sizeWithin depth) cap alternatives
      | .sequence units => totalSize (g.sizeWithin depth) cap 0 units
      | .oneOrMore b => g.sizeWithin depth b unbounded
      | .zeroOrMore _ | .zeroOrOne _ | .lookahead _ | .action _ => return 0

/-- The least number of tokens that an expansion can match. All nodes on the way down are
different, so the depth is no more than the number of nodes. -/
def minimumSize (g : Grammar) (id : NodeId) : Nat :=
  (g.sizeWithin (g.nodes.size + 1) id unbounded []).1

end Grammar

end GrammarForge
