import GrammarForge.Grammar.Basic
import GrammarForge.Options

set_option autoImplicit false

/-!
# Writing grammars

Operations that add token definitions, expansion nodes and productions to a grammar. Those
that make something new return its number together with the new grammar.

Every sequence begins with a lookahead node, and every alternative of a choice is a sequence.

## Main definitions

* `TokenSpec`, `Grammar.addToken`, `Grammar.privateRegex` — token definitions.
* `Grammar.literal`, `Grammar.token`, `Grammar.nonterminal`, `Grammar.sequence`,
  `Grammar.choice` and the like — expansion nodes.
* `Grammar.addProduction`, `Grammar.addCodeProduction` — productions.
-/

namespace GrammarForge

namespace LookaheadSpec

/-- The lookahead of a sequence that has none written. -/
def implicit : LookaheadSpec := {}

/-- A lookahead of `n` tokens. -/
def tokens (n : Nat) : LookaheadSpec := { amount := some n, explicit := true }

/-- A lookahead that scans as far as the expansion requires. -/
def syntactic (expansion : NodeId) : LookaheadSpec :=
  { amount := some unbounded, explicit := true, expansion := some expansion }

/-- A lookahead by a condition alone. -/
def ofCondition (condition : String) : LookaheadSpec :=
  { amount := some 0, explicit := true, semantic := some condition }

/-- Adds a condition. -/
def withCondition (s : LookaheadSpec) (condition : String) : LookaheadSpec :=
  { s with semantic := some condition }

/-- Adds an expansion to scan. -/
def withExpansion (s : LookaheadSpec) (expansion : NodeId) : LookaheadSpec :=
  { s with expansion := some expansion }

end LookaheadSpec

/-- A token definition as it is written. -/
structure TokenSpec where
  label : Option String := none
  regex : Regex
  action : TokenAction := .token
  /-- The names of its lexical states; none means the default one. -/
  states : List String := []
  allStates : Bool := false
  nextState : Option String := none
  ignoreCase : Bool := false
deriving Repr, Inhabited

namespace Grammar

/-- Sets the position given to what is written next. -/
def setPosition (g : Grammar) (p : Position) : Grammar := { g with position := p }

/-- The number of a lexical state. -/
def lexicalState (g : Grammar) (name : String) : Nat × Grammar :=
  let (i, t) := g.lexicalStates.intern name
  (i, { g with lexicalStates := t })

/-- Keeps a fault for the time of linking. -/
def defer (g : Grammar) (fault : GrammarFault) : Grammar :=
  { g with deferred := g.deferred ++ [(g.position, fault)] }

/-- Keeps a fault if there is one. -/
def deferIf (g : Grammar) (c : Bool) (fault : GrammarFault) : Grammar :=
  if c then g.defer fault else g

/-- Puts an expression into a new slot. -/
def addRegex (g : Grammar) (r : Regex) : Nat × Grammar :=
  (g.regexes.size, { g with regexes := g.regexes.push (some r) })

/-- Gives a label to a slot; a label used before now means the new slot. -/
def nameRegex (g : Grammar) (label : String) (slot : Nat) : Grammar :=
  { g with regexNames := g.regexNames.insert label slot }.deferIf
    (g.regexNames.contains label) (.duplicateLabel label)

/-- The text of an expression that is a plain literal. -/
def literalText? : Regex → Option String
  | .literal s => some s
  | _ => none

/-- Whether two sets of lexical states have a state in common. -/
def statesMeet (a b : StateSet) : Bool :=
  a.all || b.all || a.states.any b.states.contains

/-- Whether a literal is already a token in one of the given lexical states. -/
def literalTaken (g : Grammar) (image : String) (states : StateSet) : Bool :=
  g.tokens.any fun t => t.literal = some image && statesMeet t.states states

/-- The numbers of the lexical states of a definition and of the state that follows it. -/
def resolveStates (g : Grammar) (spec : TokenSpec) : (StateSet × Option Nat) × Grammar :=
  let (states, names) :=
    if spec.states.isEmpty then ([0], g.lexicalStates)
    else g.lexicalStates.internAll spec.states
  let (next, names) := match spec.nextState with
    | none => (none, names)
    | some name => let (i, names) := names.intern name; (some i, names)
  ((⟨states, spec.allStates⟩, next), { g with lexicalStates := names })

/-- Adds a token, and gives its ordinal. A definition of the end of the input becomes a rule
about the lexical state that follows it; its ordinal is zero. -/
def addToken (g : Grammar) (spec : TokenSpec) : Nat × Grammar :=
  let ((states, next), g) := g.resolveStates spec
  match spec.regex with
  | .endOfInput => (0, { g with eofRules := g.eofRules.push ⟨states, next, g.position⟩ })
  | regex =>
    let image := literalText? regex
    let g := match image with
      | some s => g.deferIf (g.literalTaken s states) (.duplicateLiteral s)
      | none => g
    let (slot, g) := g.addRegex regex
    let g := match spec.label with
      | some label => g.nameRegex label slot
      | none => g
    let definition : TokenDef :=
      { label := spec.label
        regex := slot
        action := spec.action
        states := states
        nextState := next
        ignoreCase := spec.ignoreCase
        literal := image
        position := g.position }
    (g.tokens.size, { g with tokens := g.tokens.push definition })

/-- Adds a labelled expression that is no token, and gives its slot. -/
def privateRegex (g : Grammar) (label : String) (r : Regex) : Nat × Grammar :=
  let (slot, g) := g.addRegex r
  (slot, g.nameRegex label slot)

/-- Adds a node. -/
def addNode (g : Grammar) (kind : NodeKind) : NodeId × Grammar :=
  (g.nodes.size, { g with nodes := g.nodes.push { kind, position := g.position } })

/-- Adds a node at a given position. -/
def addNodeAt (g : Grammar) (p : Position) (kind : NodeKind) : NodeId × Grammar :=
  (g.nodes.size, { g with nodes := g.nodes.push { kind, position := p } })

/-- Whether a token stands for the literal `image`. -/
def meansLiteral (image : String) (t : TokenDef) : Bool :=
  match t.literal with
  | some s => if t.ignoreCase then lowercase s = lowercase image else s = image
  | none => false

/-- A literal in a production: a token that has its text, or a new one. -/
def literal (g : Grammar) (image : String) : NodeId × Grammar :=
  let (ordinal, g) := match g.tokens.findIdx? (meansLiteral image) with
    | some o => (o, g)
    | none => g.addToken { regex := .literal image }
  g.addNode (.token ordinal)

/-- A token by its label, to be looked up when the grammar is linked. -/
def token (g : Grammar) (label : String) : NodeId × Grammar :=
  let (id, g) := g.addNode (.token 0)
  (id, { g with tokenRefs := g.tokenRefs ++ [(id, label)] })

/-- The end of the input. -/
def eof (g : Grammar) : NodeId × Grammar := g.addNode (.token 0)

/-- A production by its name. -/
def nonterminal (g : Grammar) (name : String) : NodeId × Grammar :=
  g.addNode (.nonterminal name none)

/-- An action. -/
def action (g : Grammar) (code : String) : NodeId × Grammar := g.addNode (.action code)

/-- A lookahead. -/
def lookahead (g : Grammar) (spec : LookaheadSpec) : NodeId × Grammar :=
  g.addNode (.lookahead spec)

/-- The position of the first of some nodes, or else the current one. -/
def positionOf (g : Grammar) : List NodeId → Position
  | [] => g.position
  | id :: _ => (g.node id).position

/-- A sequence. Unless its first unit is a lookahead, an implicit one is put before it. -/
def sequence (g : Grammar) (units : List NodeId) : NodeId × Grammar :=
  let p := g.positionOf units
  if (units.head?.map fun u => (g.kind u).isLookahead).getD false then
    g.addNodeAt p (.sequence units)
  else
    let (la, g) := g.addNodeAt p (.lookahead .implicit)
    g.addNodeAt p (.sequence (la :: units))

/-- A sequence with a lookahead. -/
def sequenceWith (g : Grammar) (spec : LookaheadSpec) (units : List NodeId) : NodeId × Grammar :=
  let (la, g) := g.addNodeAt (g.positionOf units) (.lookahead spec)
  g.sequence (la :: units)

/-- The alternatives of a choice, each as a sequence. -/
def asSequences (g : Grammar) : List NodeId → List NodeId × Grammar
  | [] => ([], g)
  | a :: rest =>
    let (a, g) := if (g.kind a).isSequence then (a, g) else g.sequence [a]
    let (rest, g) := g.asSequences rest
    (a :: rest, g)

/-- A choice; a single alternative is no choice and is returned as it is. -/
def choice (g : Grammar) (alternatives : List NodeId) : NodeId × Grammar :=
  match alternatives with
  | [a] => (a, g)
  | _ =>
    let (alternatives, g) := g.asSequences alternatives
    g.addNodeAt (g.positionOf alternatives) (.choice alternatives)

/-- A body once or more often. -/
def oneOrMore (g : Grammar) (body : NodeId) : NodeId × Grammar := g.addNode (.oneOrMore body)

/-- A body any number of times. -/
def zeroOrMore (g : Grammar) (body : NodeId) : NodeId × Grammar := g.addNode (.zeroOrMore body)

/-- A body or nothing. -/
def zeroOrOne (g : Grammar) (body : NodeId) : NodeId × Grammar := g.addNode (.zeroOrOne body)

/-- Adds a production with the given right side. -/
def defineProduction (g : Grammar) (name : String) (expansion : Option NodeId) : Nat × Grammar :=
  let g := g.deferIf (g.productionNames.index? name).isSome (.duplicateProduction name)
  let production : Production := { name, expansion, position := g.position }
  (g.productions.size,
    { g with
      productionNames := (g.productionNames.intern name).2
      productions := g.productions.push production })

/-- Adds a production; the first one is the start symbol. -/
def addProduction (g : Grammar) (name : String) (expansion : NodeId) : Nat × Grammar :=
  g.defineProduction name (some expansion)

/-- Adds a production that is parsed by hand-written code. -/
def addCodeProduction (g : Grammar) (name : String) : Nat × Grammar :=
  g.defineProduction name none

end Grammar

end GrammarForge
