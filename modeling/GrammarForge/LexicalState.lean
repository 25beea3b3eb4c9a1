import GrammarForge.Automaton.Construction
import GrammarForge.Automaton.Numbering
import GrammarForge.Automaton.Reduction
import GrammarForge.Context
import GrammarForge.Grammar.Basic

set_option autoImplicit false

/-!
# Lexical states

The scanner of a grammar. Each lexical state has an automaton that begins with the fragments of
all tokens active in it; the automaton is closed, reduced if the options say so, and numbered.

## Main definitions

* `LexicalState`, `Lexer` — the compiled automata.
* `Lexer.build` — the scanner of a grammar.
* `Lexer.scanTables` — its tables.
-/

namespace GrammarForge

/-- The compiled automaton of a lexical state. -/
structure LexicalState where
  name : String
  automaton : Automaton
  /-- The state in which a match begins. -/
  initialState : Nat
  numbering : Numbering
  /-- The kind that matches the empty text. -/
  emptyMatch : Option Nat
  /-- Whether a rule says what happens at the end of the input. -/
  hasEofRule : Bool
  eofNextState : Option Nat
  /-- The actions of the tokens active in this state. -/
  actions : List TokenAction
deriving DecidableEq, Repr, Inhabited

/-- The automata of all lexical states. -/
structure Lexer where
  states : Array LexicalState
  kinds : Array KindInfo
deriving DecidableEq, Repr, Inhabited

namespace LexicalState

/-- The mode of a scanner for this lexical state. -/
def scanMode (s : LexicalState) : ScanMode :=
  { name := s.name
    states := s.numbering.scanStates s.automaton
    nextSets := s.numbering.nextSets
    composites := s.numbering.composites
    initial := s.numbering.initial
    emptyMatch := s.emptyMatch
    eofNextMode := s.eofNextState }

/-- Whether some token of the state has the action. -/
def hasAction (s : LexicalState) (a : TokenAction) : Bool := s.actions.contains a

/-- The runtime number of an automaton state, if it has one. -/
def runtimeIndex? (s : LexicalState) (i : Nat) : Option Nat := s.numbering.number.getD i none

end LexicalState

/-- The fragments of a lexical state's tokens, while they are built. -/
structure TokenFragments where
  construction : Construction
  /-- For each token, the first state of its fragment. -/
  starts : List (Nat × Nat) := []
  actions : List TokenAction := []

namespace TokenFragments

/-- Builds the fragment of one token and lets the automaton begin with it too. If the token's
regular expression is missing, the result is the construction as it was. -/
def add (options : Options) (initial : Nat) (t : TokenFragments) (ordinal : Nat)
    (d : TokenDef) : Except Construction TokenFragments :=
  match Build.takeSlot d.regex t.construction with
  | (none, c) => .error c
  | (some r, c) =>
    let m : BuildMode := ⟨d.ignoreCase || options.ignoreCase, d.position⟩
    let ((f, r), c) := construct m r c
    let ((), c) := Build.putSlot d.regex r c
    let a := c.automaton.modify f.last fun s => { s.lowerKind (some ordinal) with isFinal := true }
    .ok { construction := { c with automaton := a.addEpsilon initial f.first }
          starts := t.starts ++ [(ordinal, f.first)]
          actions := t.actions ++ [d.action] }

/-- Builds the fragments of several tokens. The error tells which token has no regular
expression, and what was built before it. -/
def addAll (options : Options) (initial : Nat) (t : TokenFragments) :
    List (Nat × TokenDef) → Except (Nat × Construction) TokenFragments
  | [] => .ok t
  | (ordinal, d) :: rest =>
    match t.add options initial ordinal d with
    | .error c => .error (ordinal, c)
    | .ok t => t.addAll options initial rest

end TokenFragments

namespace Lexer

/-- The tokens active in a lexical state with their ordinals; the end of the input is none. -/
def activeTokens (g : Grammar) (mode : Nat) : List (Nat × TokenDef) :=
  ((g.tokens.toList.zipIdx.map fun (d, i) => (i, d)).drop 1).filter fun t => t.2.states.has mode

/-- The warning about a token that matches the empty text. -/
def emptyMatchWarning (d : TokenDef) (state : String) : String :=
  "Regular expression" ++ ((d.label.map (" for " ++ ·)).getD "") ++
    " can be matched by the empty string (\"\") in lexical state " ++ state ++
    ". This can result in an endless loop of empty string matches."

/-- Warns if the empty text is matched. -/
def warnEmptyMatch (g : Grammar) (state : String) (ds : Diagnostics) :
    Option Nat → Diagnostics
  | none => ds
  | some k =>
    let d := g.tokens.getD k default
    ds.warning d.position (emptyMatchWarning d state)

/-- The compiled form of a lexical state, from the fragments of its tokens. -/
def finishState (g : Grammar) (options : Options) (mode : Nat) (initial : Nat)
    (t : TokenFragments) : Except CompileError LexicalState := do
  let a ← t.construction.automaton.closures options.reduceStates
  let rules := g.eofRules.toList.filter (·.states.has mode)
  return { name := (g.lexicalStates.name? mode).getD ""
           automaton := a
           initialState := initial
           numbering := a.number initial t.starts
           emptyMatch := (a.state initial).kind
           hasEofRule := !rules.isEmpty
           eofNextState := rules.getLast?.bind EofRule.nextState
           actions := t.actions }

/-- What a building step leaves: the result, the regular expressions and the diagnostics. -/
abbrev Built (α : Type) := Except CompileError α × Grammar × Context

/-- Builds one lexical state. Normalized regular expressions stay in the grammar. -/
def buildState (g : Grammar) (ctx : Context) (mode : Nat) : Built LexicalState :=
  let (initial, a) := ({} : Automaton).newState
  let c : Construction := ⟨a, g.regexes, ctx.diagnostics⟩
  match TokenFragments.addAll ctx.options initial ⟨c, [], []⟩ (activeTokens g mode) with
  | .error (ordinal, c) =>
    (.error (.missingRegex ordinal), { g with regexes := c.slots },
      { ctx with diagnostics := c.diagnostics })
  | .ok t =>
    let built := { g with regexes := t.construction.slots }
    match finishState g ctx.options mode initial t with
    | .error e => (.error e, built, { ctx with diagnostics := t.construction.diagnostics })
    | .ok s =>
      let ds := warnEmptyMatch g s.name t.construction.diagnostics s.emptyMatch
      (.ok s, built, { ctx with diagnostics := ds })

/-- Builds several lexical states. -/
def buildStates (g : Grammar) (ctx : Context) : List Nat → Built (List LexicalState)
  | [] => (.ok [], g, ctx)
  | mode :: rest =>
    match buildState g ctx mode with
    | (.error e, g, ctx) => (.error e, g, ctx)
    | (.ok s, g, ctx) =>
      match buildStates g ctx rest with
      | (.error e, g, ctx) => (.error e, g, ctx)
      | (.ok ss, g, ctx) => (.ok (s :: ss), g, ctx)

/-- What a scanner does with each token. -/
def kindInfos (g : Grammar) : Array KindInfo :=
  g.tokens.mapIdx fun ordinal d =>
    { label := d.label.getD (g.tokenImage ordinal), action := d.action, nextMode := d.nextState }

/-- Builds the automata of all lexical states. -/
def build (g : Grammar) (ctx : Context) : Built Lexer :=
  match buildStates g ctx (List.range g.lexicalStates.size) with
  | (.error e, g, ctx) => (.error e, g, ctx)
  | (.ok states, g, ctx) => (.ok ⟨states.toArray, kindInfos g⟩, g, ctx)

/-- The lexical state of a name. -/
def state? (l : Lexer) (name : String) : Option LexicalState :=
  l.states.find? (·.name = name)

/-- The tables of a scanner. -/
def scanTables (l : Lexer) : ScanTables :=
  { modes := l.states.map LexicalState.scanMode, kinds := l.kinds, startMode := 0 }

end Lexer

end GrammarForge
