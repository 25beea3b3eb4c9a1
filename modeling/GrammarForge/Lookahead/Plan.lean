import GrammarForge.Lookahead.FirstKinds
import GrammarForge.Lookahead.MinimumSize

set_option autoImplicit false

/-!
# Lookahead plans

A plan says how a parser takes its decisions. At each choice point every branch has a decision:
it may be taken at once, by a condition, by the kind of the next token, or by a routine that
scans ahead. The plan also lists the scan routines that are needed, with the number of tokens
each of them has to look at.

## Main definitions

* `Decision`, `DecisionPoint` — decisions.
* `RoutineName`, `EntryRoutine`, `ScanRoutine` — scan routines.
* `Plan` — a plan.
* `Planner` — a plan in the making.
* `Planner.decideBranches` — the decisions of a choice point.
* `Planner.setUp` — the routines that a scan needs.
* `Grammar.plan` — the plan of a grammar.
-/

namespace GrammarForge

/-- The name of a scan routine. -/
inductive RoutineName where
  /-- A routine called by a decision. -/
  | entry (n : Nat)
  /-- A routine called by other routines. -/
  | inner (n : Nat)
  /-- The scan of one token, for which there is no routine. -/
  | token (kind : Nat)
deriving DecidableEq, Repr, Inhabited

/-- How a routine's name is written. -/
def RoutineName.text : RoutineName → String
  | entry n => "_" ++ toString n
  | inner n => "R_" ++ toString n
  | token kind => "scan_token(" ++ toString kind ++ ")"

/-- How a branch is chosen. -/
inductive Decision where
  /-- It is taken without looking. -/
  | always
  /-- An earlier branch is always taken. -/
  | unreachable
  /-- It is taken if the condition holds. -/
  | semantic (condition : String)
  /-- It is taken if the next token is of one of these kinds. -/
  | switch (kinds : List Nat)
  /-- It is taken if the routine succeeds on so many tokens, and the condition holds. -/
  | scan (routine : RoutineName) (amount : Nat) (condition : Option String)
deriving DecidableEq, Repr, Inhabited

/-- The constructs that take decisions. -/
inductive DecisionKind where
  | choice
  | oneOrMore
  | zeroOrMore
  | zeroOrOne
deriving DecidableEq, Repr, Inhabited

/-- A branch with its decision. -/
structure Branch where
  expansion : NodeId
  decision : Decision
deriving DecidableEq, Repr, Inhabited

/-- A choice point with its branches. -/
structure DecisionPoint where
  node : NodeId
  kind : DecisionKind
  branches : List Branch
deriving DecidableEq, Repr, Inhabited

/-- A scan routine called by a decision. -/
structure EntryRoutine where
  name : RoutineName
  expansion : NodeId
  amount : Nat
deriving DecidableEq, Repr, Inhabited

/-- A routine that checks whether an expansion matches the next tokens. -/
structure ScanRoutine where
  name : RoutineName
  expansion : NodeId
  /-- The number of tokens to look at. -/
  budget : Nat
  minimumSize : Nat
  /-- Whether conditions have to be checked while scanning. -/
  checksSemantic : Bool
deriving DecidableEq, Repr, Inhabited

/-- How a parser takes its decisions. -/
structure Plan where
  decisions : List DecisionPoint := []
  entries : Array EntryRoutine := #[]
  routines : List ScanRoutine := []
  /-- The routine names of expansions. -/
  names : OrderedMap NodeId RoutineName := {}
deriving DecidableEq, Repr, Inhabited

namespace Plan

/-- The decisions at a node. -/
def decision? (p : Plan) (id : NodeId) : Option DecisionPoint := p.decisions.find? (·.node = id)

/-- The name of the routine that scans an expansion. -/
def routineName? (p : Plan) (id : NodeId) : Option RoutineName := p.names.get? id

/-- The routine of a name. -/
def routine? (p : Plan) (name : RoutineName) : Option ScanRoutine :=
  p.routines.find? (·.name = name)

end Plan

/-- The lookahead that guards a branch. -/
structure Condition where
  amount : Nat
  semantic : Option String
  expansion : NodeId
deriving DecidableEq, Repr

/-- A plan in the making. -/
structure Planner where
  names : OrderedMap NodeId RoutineName := {}
  entries : Array EntryRoutine := #[]
  /-- The number of inner routines named so far. -/
  innerCount : Nat := 0
  /-- The expansions that need a routine, with the number of tokens to look at. -/
  table : OrderedMap NodeId Nat := {}
  /-- Entries of the table whose own needs have not been looked at. -/
  pending : List (NodeId × Nat) := []
deriving DecidableEq, Repr, Inhabited

namespace Grammar

/-- The lookahead at the front of a branch, or the default one. -/
def condition (g : Grammar) (defaultAmount : Nat) (branch : NodeId) : Condition :=
  match g.leadingLookahead? branch with
  | some (_, spec) =>
    { amount := spec.amount.getD defaultAmount
      semantic := spec.semantic
      expansion := spec.expansion.getD branch }
  | none => { amount := defaultAmount, semantic := none, expansion := branch }

/-- The choice points' kinds, with their branches. -/
def branchesOf? (g : Grammar) (id : NodeId) : Option (DecisionKind × List NodeId) :=
  match g.kind id with
  | .choice alternatives => some (.choice, alternatives)
  | .oneOrMore b => some (.oneOrMore, [b])
  | .zeroOrMore b => some (.zeroOrMore, [b])
  | .zeroOrOne b => some (.zeroOrOne, [b])
  | _ => none

/-- Whether looking at tokens is of no use: the lookahead has no tokens, or what it scans can
match nothing or begins with a code production. -/
def isIdle (g : Grammar) (c : Condition) : Bool :=
  c.amount = 0 || g.isNullable c.expansion || g.codeProductionFirst c.expansion

/-- Whether scanning some units finds a choice with conditions; `size` is subtracted from the
budget unit by unit. -/
def unitsCheck (g : Grammar) (check : NodeId → Nat → Bool) : Nat → List NodeId → Bool
  | _, [] => false
  | budget, u :: us =>
    if (g.kind u).isLookahead then g.unitsCheck check budget us
    else
      let left := budget - g.minimumSize u
      check u budget || (left ≠ 0 && g.unitsCheck check left us)

/-- Whether a scan of an expansion has to check conditions, down to a depth. -/
def checksSemanticWithin (g : Grammar) : Nat → NodeId → Nat → Bool
  | 0, _, _ => false
  | depth + 1, id, budget =>
    match g.kind id with
    | .choice alternatives => alternatives.any g.hasCondition
    | .sequence units => g.unitsCheck (g.checksSemanticWithin depth) budget units
    | _ => false

/-- Whether a scan of an expansion within a budget has to check conditions of a choice. -/
def checksSemantic (g : Grammar) (id : NodeId) (budget : Nat) : Bool :=
  g.checksSemanticWithin (g.nodes.size + 1) id budget

/-- The one expansion that an expansion consists of, apart from its lookahead. -/
def onlyPart? (g : Grammar) (id : NodeId) : Option NodeId :=
  match g.kind id with
  | .sequence [_, u] => some u
  | .nonterminal _ (some p) => g.body p
  | _ => none

/-- What an expansion boils down to; the expansions in `seen` have been passed. -/
def core (g : Grammar) : Nat → List NodeId → NodeId → NodeId
  | 0, _, id => id
  | depth + 1, seen, id =>
    match g.onlyPart? id with
    | none => id
    | some part => if seen.contains part then id else g.core depth (part :: seen) part

/-- The kind of the token that an expansion boils down to, if it does. -/
def loneToken? (g : Grammar) (id : NodeId) : Option Nat :=
  match g.kind (g.core (g.nodes.size + 1) [id] id) with
  | .token k => some k
  | _ => none

end Grammar

namespace Planner

/-- Names a new routine for a decision. -/
def addEntry (p : Planner) (c : Condition) : Decision × Planner :=
  let name := RoutineName.entry (p.entries.size + 1)
  (.scan name c.amount c.semantic,
    { p with
      names := p.names.insert c.expansion name
      entries := p.entries.push ⟨name, c.expansion, c.amount⟩ })

/-- The decision of a branch that is reached. The kinds in `cased` are taken by earlier
branches. -/
def decideBranch (g : Grammar) (p : Planner) (cased : List Nat) (c : Condition) :
    Decision × Planner :=
  if g.isIdle c then
    match c.semantic with
    | none => (.always, p)
    | some condition => (.semantic condition, p)
  else if c.amount = 1 && c.semantic.isNone then
    let found := g.firstKinds c.expansion
    if found.needsScan then p.addEntry c
    else (.switch (found.kinds.filter fun k => !cased.contains k), p)
  else p.addEntry c

/-- The kinds by which a decision is taken. -/
def casesOf : Decision → List Nat
  | .switch kinds => kinds
  | _ => []

/-- The decisions of the branches of a choice point, from first to last. -/
def decideBranches (g : Grammar) (defaultAmount : Nat) (p : Planner) (cased : List Nat) :
    List NodeId → List Branch × Planner
  | [] => ([], p)
  | id :: ids =>
    let (d, p) := decideBranch g p cased (g.condition defaultAmount id)
    if d = .always then (⟨id, d⟩ :: ids.map fun i => ⟨i, .unreachable⟩, p)
    else
      let (bs, p) := decideBranches g defaultAmount p (cased ++ casesOf d) ids
      (⟨id, d⟩ :: bs, p)

/-- The decisions of several nodes, of which those that are no choice points have none. -/
def decideAll (g : Grammar) (defaultAmount : Nat) (p : Planner) :
    List NodeId → List DecisionPoint × Planner
  | [] => ([], p)
  | id :: ids =>
    match g.branchesOf? id with
    | none => decideAll g defaultAmount p ids
    | some (kind, branches) =>
      let (bs, p) := decideBranches g defaultAmount p [] branches
      let (points, p) := decideAll g defaultAmount p ids
      (⟨id, kind, bs⟩ :: points, p)

/-- Asks for a routine that looks at `budget` tokens, unless there is one that looks at as
many. -/
def enqueue (p : Planner) (id : NodeId) (budget : Nat) : Planner :=
  if ((p.table.get? id).map fun b => decide (b < budget)).getD true then
    { p with table := p.table.insert id budget, pending := p.pending ++ [(id, budget)] }
  else p

/-- Gives an expansion a routine name, if it has none. -/
def giveName (g : Grammar) (p : Planner) (id : NodeId) : Planner :=
  if p.names.contains id then p
  else
    match g.loneToken? id with
    | some k => { p with names := p.names.insert id (.token k) }
    | none =>
      { p with
        names := p.names.insert id (.inner (p.innerCount + 1))
        innerCount := p.innerCount + 1 }

/-- Names an expansion and asks for its routine. An expansion that boils down to one token is
scanned without a routine. -/
def register (g : Grammar) (p : Planner) (id : NodeId) (budget : Nat) : Planner :=
  let p := giveName g p id
  match p.names.get? id with
  | some (.token _) => p
  | _ => p.enqueue id budget

/-- Looks at the units of a sequence, as far as the budget reaches. -/
def setUpUnits (g : Grammar) (setUp : Planner → NodeId → Nat → Planner) :
    Planner → Nat → List NodeId → Planner
  | p, _, [] => p
  | p, budget, u :: us =>
    if (g.kind u).isLookahead then setUpUnits g setUp p budget us
    else
      let p := setUp p u budget
      let left := budget - g.minimumSize u
      if left = 0 then p else setUpUnits g setUp p left us

/-- Asks for the routines that scanning an expansion within a budget needs, down to a depth. -/
def setUpWithin (g : Grammar) : Nat → Planner → NodeId → Nat → Planner
  | 0, p, _, _ => p
  | depth + 1, p, id, budget =>
    match g.kind id with
    | .nonterminal _ (some q) =>
      match g.body q with
      | some root => register g p root budget
      | none => p
    | .choice alternatives => alternatives.foldl (fun p a => register g p a budget) p
    | .sequence units => setUpUnits g (setUpWithin g depth) p budget units
    | .oneOrMore b | .zeroOrMore b | .zeroOrOne b => register g p b budget
    | _ => p

/-- Asks for the routines that scanning an expansion within a budget needs. -/
def setUp (g : Grammar) (p : Planner) (id : NodeId) (budget : Nat) : Planner :=
  setUpWithin g (g.nodes.size + 1) p id budget

/-- Looks at pending routines until there are none, in at most `rounds` rounds. -/
def settle (g : Grammar) : Nat → Planner → Planner
  | 0, p => p
  | rounds + 1, p =>
    match p.pending with
    | [] => p
    | (id, budget) :: rest => settle g rounds (setUp g { p with pending := rest } id budget)

/-- The greatest number of tokens that a decision asks for. -/
def greatestAmount (p : Planner) : Nat := p.entries.foldl (fun n e => max n e.amount) 0

/-- Enough rounds: a routine is asked for by a decision or for an expansion that the grammar
mentions, each time the budget of the expansion has grown, and no budget exceeds the greatest
amount. -/
def roundBound (g : Grammar) (p : Planner) : Nat :=
  (p.entries.size + g.mentionedIds.length) * (p.greatestAmount + 1)

/-- Asks for the routines of all decisions, and for all that these need. -/
def setUpAll (g : Grammar) (p : Planner) : Planner :=
  let p := p.entries.foldl (fun p e => p.enqueue e.expansion e.amount) p
  settle g (roundBound g p) p

/-- The routine of a table entry. -/
def routine (g : Grammar) (p : Planner) (entry : NodeId × Nat) : ScanRoutine :=
  { name := (p.names.get? entry.1).getD default
    expansion := entry.1
    budget := entry.2
    minimumSize := g.minimumSize entry.1
    checksSemantic := g.checksSemantic entry.1 entry.2 }

end Planner

/-- The plan of a grammar, with `defaultAmount` tokens of lookahead where none are given. -/
def Grammar.plan (g : Grammar) (defaultAmount : Nat) : Plan :=
  let (decisions, p) := Planner.decideAll g defaultAmount {} g.productionNodes
  let p := p.setUpAll g
  { decisions
    entries := p.entries
    routines := p.table.entries.map (p.routine g)
    names := p.names }

end GrammarForge
