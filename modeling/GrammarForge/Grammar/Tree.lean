import GrammarForge.Grammar.Basic

set_option autoImplicit false

/-!
# The expansion tree

Children, traversal and nullability of expansion nodes. The child relation of a grammar has no
cycles, so a walk down the tree is never deeper than there are nodes.

## Main definitions

* `Grammar.mentionedIds` — the node ids that a grammar mentions.
* `Grammar.children` — the children of a node, with the expansion that a lookahead scans if it
  belongs to the lookahead alone.
* `Grammar.walk` — a node and its descendants in preorder.
* `Grammar.isNullable` — whether an expansion can match no tokens at all.
* `Grammar.leadingLookahead?` — the lookahead at the front of a sequence.
-/

namespace GrammarForge

/-- The nodes a node is made of; what a lookahead scans is not one of them. -/
def NodeKind.parts : NodeKind → List NodeId
  | choice ids | sequence ids => ids
  | oneOrMore b | zeroOrMore b | zeroOrOne b => [b]
  | token _ | nonterminal _ _ | lookahead _ | action _ => []

/-- The expansion that a lookahead scans. -/
def NodeKind.scanned? : NodeKind → Option NodeId
  | lookahead spec => spec.expansion
  | _ => none

/-- The body of a repetition or an option. -/
def NodeKind.loopBody? : NodeKind → Option NodeId
  | oneOrMore b | zeroOrMore b | zeroOrOne b => some b
  | _ => none

/-- How a repetition or an option is shown. -/
def NodeKind.constructImage : NodeKind → String
  | oneOrMore _ => "(...)+"
  | zeroOrMore _ => "(...)*"
  | zeroOrOne _ => "[...]"
  | _ => ""

namespace Grammar

/-- The node ids that a grammar mentions: the right sides of productions first, then what each
node is made of or scans. -/
def mentionedIds (g : Grammar) : List NodeId :=
  g.productions.toList.filterMap Production.expansion ++
    g.nodes.toList.flatMap fun n => n.kind.parts ++ n.kind.scanned?.toList

/-- The children of a node, from left to right. -/
def children (g : Grammar) (id : NodeId) : List NodeId :=
  (g.kind id).parts ++
    (match (g.kind id).scanned? with
     | some e => if (g.node e).parent = .node id then [e] else []
     | none => [])

/-- A node and its descendants in preorder, down to a depth. -/
def walkWithin (g : Grammar) (intoLookahead : Bool) : Nat → NodeId → List NodeId
  | 0, id => [id]
  | depth + 1, id =>
    id :: (if !intoLookahead && (g.kind id).isLookahead then []
           else (g.children id).flatMap (g.walkWithin intoLookahead depth))

/-- A node and its descendants in preorder. What lookaheads scan is entered only if
`intoLookahead` is set. -/
def walk (g : Grammar) (root : NodeId) (intoLookahead : Bool) : List NodeId :=
  g.walkWithin intoLookahead g.nodes.size root

/-- All nodes of all productions, each production in preorder, without lookahead expansions. -/
def productionNodes (g : Grammar) : List NodeId :=
  g.productions.toList.flatMap fun p =>
    match p.expansion with
    | some root => g.walk root false
    | none => []

/-- The production that a nonterminal node refers to. -/
def productionOf? (g : Grammar) (id : NodeId) : Option Nat :=
  match g.kind id with
  | .nonterminal _ p => p
  | _ => none

/-- Whether a node refers to a production that is parsed by hand-written code. -/
def isCodeProduction (g : Grammar) (id : NodeId) : Bool :=
  ((g.productionOf? id).map fun p => (g.body p).isNone).getD false

/-- Nullability down to a depth. -/
def nullableWithin (g : Grammar) : Nat → NodeId → Bool
  | 0, _ => false
  | depth + 1, id =>
    match g.kind id with
    | .token _ => false
    | .nonterminal _ p => (p.map fun p => (g.production p).nullable).getD false
    | .choice alternatives => alternatives.any (g.nullableWithin depth)
    | .sequence units => units.all (g.nullableWithin depth)
    | .oneOrMore b => g.nullableWithin depth b
    | .zeroOrMore _ | .zeroOrOne _ | .lookahead _ | .action _ => true

/-- Whether an expansion can match no tokens at all, going by what is known of productions. -/
def isNullable (g : Grammar) (id : NodeId) : Bool :=
  g.nullableWithin (g.nodes.size + 1) id

/-- The lookahead at the front of a sequence, with its place. -/
def leadingLookahead? (g : Grammar) (id : NodeId) : Option (NodeId × LookaheadSpec) :=
  match g.kind id with
  | .sequence (first :: _) =>
    match g.kind first with
    | .lookahead spec => some (first, spec)
    | _ => none
  | _ => none

end Grammar

end GrammarForge
