import GrammarForge.Diagnostics
import GrammarForge.NameTable
import GrammarForge.Regex.Basic
import GrammarForge.Scanner.Tables
import GrammarForge.Text.Escape

set_option autoImplicit false

/-!
# Grammars

A grammar holds token definitions and productions. The right sides of productions are trees of
expansion nodes, which are kept in one array and known by their places. Links from a node to
its parent are filled in when the grammar is linked.

## Main definitions

* `NodeKind`, `Node` — expansions.
* `LookaheadSpec` — the lookahead at the front of a sequence.
* `Production`, `TokenDef`, `EofRule` — productions and token definitions.
* `Grammar` — a grammar, linked or not.
* `Grammar.tokenImage` — how a token is shown.
-/

namespace GrammarForge

/-- The place of an expansion node. -/
abbrev NodeId := Nat

/-- What an expansion node hangs on. -/
inductive Parent where
  | none
  | production (index : Nat)
  | node (id : NodeId)
deriving DecidableEq, Repr, Inhabited

/-- A lookahead at the front of a sequence. -/
structure LookaheadSpec where
  /-- The number of tokens to look at, if it is not the default one. -/
  amount : Option Nat := none
  /-- Whether the lookahead is written in the grammar. -/
  explicit : Bool := false
  /-- A condition to be checked at run time, as source text. -/
  semantic : Option String := none
  /-- The expansion to scan; linking fills in the enclosing sequence where there is none. -/
  expansion : Option NodeId := none
deriving DecidableEq, Repr, Inhabited

/-- What an expansion matches. -/
inductive NodeKind where
  /-- The token with this ordinal; ordinal zero is the end of the input. -/
  | token (ordinal : Nat)
  /-- What the production of this name matches. -/
  | nonterminal (name : String) (production : Option Nat)
  /-- One of the alternatives. -/
  | choice (alternatives : List NodeId)
  /-- The units one after the other. -/
  | sequence (units : List NodeId)
  | oneOrMore (body : NodeId)
  | zeroOrMore (body : NodeId)
  | zeroOrOne (body : NodeId)
  /-- Nothing; it steers the choice of the sequence that it leads. -/
  | lookahead (spec : LookaheadSpec)
  /-- Nothing; the code is run by the parser. -/
  | action (code : String)
deriving DecidableEq, Repr

instance : Inhabited NodeKind := ⟨.action ""⟩

/-- Whether a kind of node is a lookahead. -/
def NodeKind.isLookahead : NodeKind → Bool
  | lookahead _ => true
  | _ => false

/-- Whether a kind of node is a sequence. -/
def NodeKind.isSequence : NodeKind → Bool
  | sequence _ => true
  | _ => false

/-- An expansion node. -/
structure Node where
  kind : NodeKind
  parent : Parent := .none
  /-- Its place among the parent's children. -/
  index : Nat := 0
  position : Position
deriving DecidableEq, Repr, Inhabited

/-- A production. -/
structure Production where
  name : String
  /-- The right side; a code production, which is parsed by hand-written code, has none. -/
  expansion : Option NodeId
  position : Position
  /-- The nonterminal nodes that refer to this production. -/
  references : List NodeId := []
  /-- Whether the production can match no tokens at all. -/
  nullable : Bool := false
deriving DecidableEq, Repr, Inhabited

/-- The lexical states that a definition belongs to. -/
structure StateSet where
  states : List Nat
  /-- The definition belongs to every lexical state. -/
  all : Bool := false
deriving DecidableEq, Repr, Inhabited

/-- Whether a set has a lexical state. -/
def StateSet.has (s : StateSet) (state : Nat) : Bool := s.all || s.states.contains state

/-- A token definition. -/
structure TokenDef where
  label : Option String
  /-- The slot of the token's regular expression. -/
  regex : Nat
  action : TokenAction := .token
  states : StateSet
  /-- The lexical state to enter after the token. -/
  nextState : Option Nat := none
  ignoreCase : Bool := false
  /-- The text of a token that is a plain literal. -/
  literal : Option String := none
  position : Position
deriving DecidableEq, Repr, Inhabited

/-- What happens at the end of the input in some lexical states. -/
structure EofRule where
  states : StateSet
  nextState : Option Nat
  position : Position
deriving DecidableEq, Repr, Inhabited

/-- What can be wrong with a grammar. -/
inductive GrammarFault where
  | duplicateLiteral (image : String)
  | duplicateLabel (label : String)
  | duplicateProduction (name : String)
  | undefinedLabel (label : String)
  | privateLabel (label : String)
  | undefinedNonterminal (name : String)
  | emptyBody (construct : String)
deriving DecidableEq, Repr

/-- The wording of a fault. -/
def GrammarFault.message : GrammarFault → String
  | duplicateLiteral image =>
    "Duplicate definition of string token \"" ++ escape image ++ "\"."
  | duplicateLabel label => "Multiply defined lexical token name \"" ++ label ++ "\"."
  | duplicateProduction name => "Production \"" ++ name ++ "\" has already been defined."
  | undefinedLabel label => "Undefined lexical token name \"" ++ label ++ "\"."
  | privateLabel label =>
    "Token name \"" ++ label ++ "\" refers to a private regular expression."
  | undefinedNonterminal name => "Non-terminal " ++ name ++ " has not been defined."
  | emptyBody construct =>
    "Expansion within \"" ++ construct ++ "\" can be matched by empty string."

/-- A grammar. -/
structure Grammar where
  nodes : Array Node := #[]
  productions : Array Production := #[]
  productionNames : NameTable := {}
  /-- Token definitions by ordinal; the first one is the end of the input. -/
  tokens : Array TokenDef := #[]
  /-- Regular expressions by slot. -/
  regexes : Array (Option Regex) := #[]
  /-- The slots of labelled regular expressions. -/
  regexNames : OrderedMap String Nat := {}
  lexicalStates : NameTable := {}
  eofRules : Array EofRule := #[]
  /-- Token nodes whose label still has to be looked up. -/
  tokenRefs : List (NodeId × String) := []
  /-- Faults met while the grammar was written, to be reported when it is linked. -/
  deferred : List (Position × GrammarFault) := []
  /-- The source position given to what is written next. -/
  position : Position := Position.start
  linked : Bool := false
deriving Repr, Inhabited

namespace Grammar

/-- The lexical state that tokens belong to unless they say otherwise. -/
def defaultStateName : String := "DEFAULT"

/-- A grammar without productions whose only token is the end of the input. -/
def empty : Grammar :=
  { tokens := #[{ label := some "EOF", regex := 0, states := ⟨[], false⟩,
                  position := Position.start }]
    regexes := #[some .endOfInput]
    lexicalStates := ⟨#[defaultStateName]⟩ }

/-- A node by its place; elsewhere there is a node that matches nothing. -/
def node (g : Grammar) (id : NodeId) : Node := g.nodes.getD id default

/-- The kind of a node. -/
def kind (g : Grammar) (id : NodeId) : NodeKind := (g.node id).kind

/-- Replaces the kind of a node. -/
def setKind (g : Grammar) (id : NodeId) (kind : NodeKind) : Grammar :=
  { g with nodes := g.nodes.modify id fun n => { n with kind } }

/-- A production by its index. -/
def production (g : Grammar) (p : Nat) : Production := g.productions.getD p default

/-- The right side of a production. -/
def body (g : Grammar) (p : Nat) : Option NodeId := (g.production p).expansion

/-- The first production of a name. -/
def productionIndex? (g : Grammar) (name : String) : Option Nat :=
  g.productions.findIdx? (·.name = name)

/-- How a token is shown: its literal in quotes, its label, or its ordinal. -/
def tokenImage (g : Grammar) (ordinal : Nat) : String :=
  if ordinal = 0 then "<EOF>"
  else
    match g.tokens[ordinal]?.map fun t => (t.literal, t.label) with
    | some (some image, _) => "\"" ++ escape image ++ "\""
    | some (none, some label) => "<" ++ label ++ ">"
    | _ => "<token of kind " ++ toString ordinal ++ ">"

/-- How a sequence of tokens is shown. -/
def tokensImage (g : Grammar) (ordinals : List Nat) : String :=
  " ".intercalate (ordinals.map g.tokenImage)

end Grammar

end GrammarForge
