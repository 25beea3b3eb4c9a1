import GrammarForge.Grammar.Tree

set_option autoImplicit false

/-!
# Linking

Linking resolves the names of a grammar, gives every node its parent and every production the
nodes that refer to it, finds out which productions can match nothing, and checks the tree.
Faults are reported as diagnostics; linking itself never fails.

## Main definitions

* `Grammar.resolveRegexNames`, `Grammar.resolveTokenRefs`, `Grammar.resolveNonterminals` —
  names.
* `Grammar.setParents` — parents and references.
* `Grammar.computeNullable` — nullability of productions.
* `Grammar.checkExpansions` — what is wrong with the tree.
* `Grammar.link` — all of it in order.
-/

namespace GrammarForge

namespace Grammar

/-- A grammar with the diagnostics reported for it. -/
abbrev Reported := Grammar × Diagnostics

/-- Reports a fault. -/
def report (ds : Diagnostics) (p : Position) (fault : GrammarFault) : Diagnostics :=
  ds.semanticError p fault.message

/-- Reports the faults met while the grammar was written. -/
def reportDeferred : Reported → Reported
  | (g, ds) => ({ g with deferred := [] }, g.deferred.foldl (fun ds f => report ds f.1 f.2) ds)

/-- The position of the token that uses a slot. -/
def slotPosition (g : Grammar) (slot : Nat) : Position :=
  ((g.tokens.toList.reverse.find? (·.regex = slot)).map TokenDef.position).getD Position.start

/-- Points the references in all regular expressions to their slots. -/
def resolveRegexNames : Reported → Reported
  | (g, ds) =>
    let faults := g.regexes.toList.zipIdx.flatMap fun (r, slot) =>
      ((r.map fun r => r.undefinedLabels g.regexNames).getD []).map fun label =>
        (g.slotPosition slot, GrammarFault.undefinedLabel label)
    ({ g with regexes := g.regexes.map fun r => r.map (·.resolve g.regexNames) },
      faults.foldl (fun ds f => report ds f.1 f.2) ds)

/-- Looks up the label of one token node. -/
def resolveTokenRef : Reported → NodeId × String → Reported
  | (g, ds), (id, label) =>
    match g.tokens.findIdx? (·.label = some label) with
    | some ordinal => (g.setKind id (.token ordinal), ds)
    | none =>
      let fault :=
        if g.regexNames.contains label then GrammarFault.privateLabel label
        else GrammarFault.undefinedLabel label
      (g, report ds (g.node id).position fault)

/-- Looks up the labels of token nodes, once. -/
def resolveTokenRefs : Reported → Reported
  | (g, ds) => g.tokenRefs.foldl resolveTokenRef ({ g with tokenRefs := [] }, ds)

/-- Looks up the name of one node, if it is a nonterminal. -/
def resolveNonterminal : Reported → NodeId → Reported
  | (g, ds), id =>
    match g.kind id with
    | .nonterminal name _ =>
      match g.productionNames.index? name with
      | some p => (g.setKind id (.nonterminal name (some p)), ds)
      | none => (g, report ds (g.node id).position (.undefinedNonterminal name))
    | _ => (g, ds)

/-- Looks up the names of all nonterminals. -/
def resolveNonterminals : Reported → Reported
  | (g, ds) => (List.range g.nodes.size).foldl resolveNonterminal (g, ds)

/-- Hangs a node on a parent. -/
def setParent (g : Grammar) (id : NodeId) (parent : Parent) (index : Nat) : Grammar :=
  { g with nodes := g.nodes.modify id fun n => { n with parent, index } }

/-- Notes that a nonterminal node refers to a production. -/
def addReference (g : Grammar) (p : Nat) (id : NodeId) : Grammar :=
  { g with productions := g.productions.modify p fun q =>
      { q with references := q.references ++ [id] } }

/-- The nodes below `id`. What a lookahead scans hangs on the lookahead unless it has a parent
already. -/
def hanging (g : Grammar) (id : NodeId) : List NodeId :=
  (g.kind id).parts ++
    (match (g.kind id).scanned? with
     | some e => if (g.node e).parent = .none then [e] else []
     | none => [])

/-- Hangs nodes on their parent from left to right. -/
def hangAll (g : Grammar) (parent : NodeId) (ids : List NodeId) : Grammar :=
  ids.zipIdx.foldl (fun g (id, i) => g.setParent id (.node parent) i) g

/-- Sets the parents of all nodes below `id`, down to a depth. -/
def linkBelow : Nat → Grammar → NodeId → Grammar
  | 0, g, _ => g
  | depth + 1, g, id =>
    let ids := g.hanging id
    let g := match g.productionOf? id with
      | some p => g.addReference p id
      | none => g
    ids.foldl (linkBelow depth) (g.hangAll id ids)

/-- A depth that no walk down the tree exceeds. A lookahead is entered at most once, so between
two lookaheads on the way there are at most as many nodes as the grammar has. -/
def linkDepth (g : Grammar) : Nat := (g.nodes.size + 1) * (g.nodes.size + 1)

/-- Sets the parents of the nodes of one production. -/
def linkProduction (g : Grammar) (p : Nat) : Grammar :=
  match g.body p with
  | some root => linkBelow g.linkDepth (g.setParent root (.production p) 0) root
  | none => g

/-- Sets the parents of all nodes and the references of all productions. -/
def setParents (g : Grammar) : Grammar :=
  let cleared := { g with productions := g.productions.map fun p => { p with references := [] } }
  (List.range g.productions.size).foldl linkProduction cleared

/-- The expansion that a lookahead scans, if none is written: the sequence it stands in. -/
def defaultExpansion (n : Node) (id : NodeId) : NodeId :=
  match n.parent with
  | .node parent => parent
  | _ => id

/-- A node with its lookahead completed. -/
def completeLookahead (n : Node) (id : NodeId) : Node :=
  match n.kind with
  | .lookahead spec =>
    { n with kind :=
        .lookahead { spec with expansion := some (spec.expansion.getD (defaultExpansion n id)) } }
  | _ => n

/-- Completes all lookaheads. -/
def fillLookaheadDefaults (g : Grammar) : Grammar :=
  { g with nodes := g.nodes.mapIdx fun id n => completeLookahead n id }

/-- Marks a production. -/
def setNullable (g : Grammar) (p : Nat) : Grammar :=
  { g with productions := g.productions.modify p fun q => { q with nullable := true } }

/-- Whether a production without a mark can match nothing, as far as the marks made so far tell. -/
def nullableFound (g : Grammar) (p : Nat) : Bool :=
  !(g.production p).nullable && ((g.production p).expansion.map g.isNullable).getD false

/-- Looks at one production, and marks it at once if it can match nothing. The flag says whether any
mark has been made. -/
def markNullable : Grammar × Bool → Nat → Grammar × Bool
  | (g, changed), p => if g.nullableFound p then (g.setNullable p, true) else (g, changed)

/-- One pass over the productions in order, in which each look relies on all marks made before it. -/
def nullablePass (g : Grammar) : Grammar × Bool :=
  (List.range g.productions.size).foldl markNullable (g, false)

/-- Repeats passes until one makes no mark, at most `passes` of them. -/
def nullablePasses : Nat → Grammar → Grammar
  | 0, g => g
  | passes + 1, g =>
    let pass := g.nullablePass
    if pass.2 then nullablePasses passes pass.1 else pass.1

/-- Marks the productions that can match nothing. Each pass but the last one makes a mark, so there is
at most one pass more than there are productions. -/
def computeNullable (g : Grammar) : Grammar := nullablePasses (g.productions.size + 1) g

/-- Whether a lookahead decides something: it leads a sequence that is an alternative of a
choice or the body of a repetition or an option. -/
def atChoicePoint (g : Grammar) (id : NodeId) : Bool :=
  let n := g.node id
  match n.parent with
  | .node s =>
    n.index = 0 && (g.kind s).isSequence &&
      (match (g.node s).parent with
       | .node q =>
         match g.kind q with
         | .choice _ | .oneOrMore _ | .zeroOrMore _ | .zeroOrOne _ => true
         | _ => false
       | _ => false)
  | _ => false

/-- The warning about a lookahead that decides nothing. -/
def idleLookahead : String :=
  "Encountered LOOKAHEAD(s) at a non-choice point.  Will be ignored."

/-- Checks one node that belongs to a production. -/
def checkNode (g : Grammar) (ds : Diagnostics) (id : NodeId) : Diagnostics :=
  let n := g.node id
  match n.kind with
  | .oneOrMore b | .zeroOrMore b | .zeroOrOne b =>
    if g.isNullable b then report ds n.position (.emptyBody n.kind.constructImage) else ds
  | .lookahead spec =>
    if spec.explicit && !g.atChoicePoint id then ds.warning n.position idleLookahead else ds
  | _ => ds

/-- Checks all nodes that belong to a production. -/
def checkExpansions : Reported → Reported
  | (g, ds) =>
    let ids := (List.range g.nodes.size).filter fun id => (g.node id).parent ≠ .none
    (g, ids.foldl g.checkNode ds)

/-- Links a grammar. -/
def link (g : Grammar) (ds : Diagnostics) : Reported :=
  let (g, ds) := resolveNonterminals (resolveTokenRefs (resolveRegexNames (reportDeferred (g, ds))))
  let (g, ds) := checkExpansions (g.setParents.fillLookaheadDefaults.computeNullable, ds)
  ({ g with linked := true }, ds)

end Grammar

end GrammarForge
