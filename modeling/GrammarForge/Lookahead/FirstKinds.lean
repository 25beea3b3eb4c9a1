import GrammarForge.Grammar.Tree

set_option autoImplicit false

/-!
# First tokens

What the very next token says about an expansion, without building token sequences: the kinds
that can come first, whether a condition on the way has to be checked by scanning, and whether
a code production can come first.

## Main definitions

* `FirstKinds` — the kinds that can come first.
* `Grammar.firstKinds` — the kinds that can begin an expansion.
* `Grammar.codeProductionFirst` — whether an expansion can begin with a code production.
-/

namespace GrammarForge

/-- The kinds that can come first, in the order of discovery, and whether a condition stands on
the way to them. -/
structure FirstKinds where
  kinds : List Nat := []
  needsScan : Bool := false
deriving DecidableEq, Repr, Inhabited

namespace FirstKinds

/-- The findings of two parts. -/
def append (a b : FirstKinds) : FirstKinds := ⟨a.kinds ++ b.kinds, a.needsScan || b.needsScan⟩

/-- The findings of several parts. -/
def join (fs : List FirstKinds) : FirstKinds := fs.foldl append {}

end FirstKinds

namespace Grammar

/-- Whether a unit of a sequence is a lookahead that is written in the grammar. -/
def isExplicitLookahead (g : Grammar) (id : NodeId) : Bool :=
  match g.kind id with
  | .lookahead spec => spec.explicit
  | _ => false

/-- Whether a sequence leads to a code production: it stands behind units that can match
nothing. A lookahead that is written announces a sequence that is parsed. -/
def leadsToCode (g : Grammar) (leads : NodeId → Bool) : List NodeId → Bool
  | [] => false
  | u :: us =>
    !g.isExplicitLookahead u && (leads u || (g.isNullable u && g.leadsToCode leads us))

/-- Whether an expansion can begin with a code production, down to a depth. The productions in
`entered` are being looked at. -/
def codeFirstWithin (g : Grammar) : Nat → List Nat → NodeId → Bool
  | 0, _, _ => false
  | depth + 1, entered, id =>
    match g.kind id with
    | .nonterminal _ (some p) =>
      match g.body p with
      | none => true
      | some root => !entered.contains p && g.codeFirstWithin depth (p :: entered) root
    | .choice alternatives => alternatives.any (g.codeFirstWithin depth entered)
    | .sequence units => g.leadsToCode (g.codeFirstWithin depth entered) units
    | .oneOrMore b | .zeroOrMore b | .zeroOrOne b => g.codeFirstWithin depth entered b
    | _ => false

/-- A depth that no walk to the first token exceeds: every production and every sequence is
entered once at most on the way down. -/
def firstTokenDepth (g : Grammar) : Nat :=
  (g.nodes.size + g.productions.size + 1) * (g.nodes.size + 1)

/-- Whether an expansion can begin with a code production. -/
def codeProductionFirst (g : Grammar) (id : NodeId) : Bool :=
  g.codeFirstWithin g.firstTokenDepth [] id

/-- The expansion that is looked at in place of a code production: what the lookahead before it
scans. -/
def scannedBefore? (g : Grammar) (before : Option NodeId) : Option NodeId :=
  before.bind fun id => (g.kind id).scanned?

/-- The first kinds of the units of a sequence, up to the first one that matches some token;
`before` is the unit before them. -/
def unitKinds (g : Grammar) (kindsOf : NodeId → FirstKinds) :
    Option NodeId → List NodeId → FirstKinds
  | _, [] => {}
  | before, u :: us =>
    let found :=
      if g.isCodeProduction u then ((g.scannedBefore? before).map kindsOf).getD {}
      else kindsOf u
    if g.isNullable u then found.append (g.unitKinds kindsOf (some u) us) else found

/-- Whether a sequence is led by a condition. -/
def hasCondition (g : Grammar) (id : NodeId) : Bool :=
  ((g.leadingLookahead? id).map fun la => la.2.semantic.isSome).getD false

/-- The first kinds of an expansion, down to a depth. The productions and sequences in the two
lists are being looked at. -/
def firstKindsWithin (g : Grammar) : Nat → List Nat → List NodeId → NodeId → FirstKinds
  | 0, _, _, _ => {}
  | depth + 1, productions, sequences, id =>
    match g.kind id with
    | .token k => ⟨[k], false⟩
    | .nonterminal _ (some p) =>
      match g.body p with
      | some root =>
        if productions.contains p then {}
        else g.firstKindsWithin depth (p :: productions) sequences root
      | none => {}
    | .choice alternatives =>
      FirstKinds.join (alternatives.map (g.firstKindsWithin depth productions sequences))
    | .sequence units =>
      if sequences.contains id then {}
      else
        FirstKinds.append ⟨[], g.hasCondition id⟩
          (g.unitKinds (g.firstKindsWithin depth productions (id :: sequences)) none units)
    | .oneOrMore b | .zeroOrMore b | .zeroOrOne b =>
      g.firstKindsWithin depth productions sequences b
    | _ => {}

/-- The kinds that can begin an expansion, ascending, and whether a condition on the way makes
it necessary to scan. -/
def firstKinds (g : Grammar) (id : NodeId) : FirstKinds :=
  let found := g.firstKindsWithin g.firstTokenDepth [] [] id
  { found with kinds := sortedSet compare found.kinds }

end Grammar

end GrammarForge
