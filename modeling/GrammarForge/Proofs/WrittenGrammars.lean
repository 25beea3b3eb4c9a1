import GrammarForge.Grammar.Builder
import GrammarForge.Proofs.LinkedTokens
import GrammarForge.Proofs.NamedReferences

set_option autoImplicit false

/-!
# Grammars written by calls

A grammar is written by a row of calls, beginning with the empty grammar; in between it may be
linked, and its scanner may be built. Lexical states get their numbers when they are first named, so
whatever the calls are, the number of a lexical state that is to be entered is known.

## Main definitions

* `Grammar.Call` — the operations with which grammars are written.
* `Grammar.written` — the grammar that a row of calls leaves.
* `Grammar.StatesKnown` — the lexical states that are entered are known.

## Main results

* `Grammar.StatesKnown.run` — every call keeps the lexical states known.
* `Grammar.statesKnown_written` — they are known in every grammar that is written.
-/

namespace GrammarForge

/-! ## Names that get numbers -/

namespace NameTable

/-- A name gets a number of the table, and the table keeps its names. -/
lemma intern_lt (t : NameTable) (name : String) :
    (t.intern name).1 < (t.intern name).2.size ∧ t.size ≤ (t.intern name).2.size := by
  rw [intern]
  cases h : t.index? name with
  | some i =>
    obtain ⟨hi, -, -⟩ := Array.findIdx?_eq_some_iff_getElem.mp h
    exact ⟨hi, le_rfl⟩
  | none => simp [size]

/-- A table does not get smaller when names are interned. -/
lemma size_le_internAll : ∀ (names : List String) (t : NameTable), t.size ≤ (t.internAll names).2.size
  | [], _ => le_rfl
  | name :: names, t => (t.intern_lt name).2.trans (size_le_internAll names (t.intern name).2)

end NameTable

namespace Grammar

/-! ## Calls -/

/-- **A call** of one of the operations with which a grammar is written, linked, or made into a
scanner. -/
inductive Call where
  | setPosition (p : Position)
  | lexicalState (name : String)
  | addToken (spec : TokenSpec)
  | privateRegex (label : String) (r : Regex)
  | literal (image : String)
  | token (label : String)
  | eof
  | nonterminal (name : String)
  | action (code : String)
  | lookahead (spec : LookaheadSpec)
  | sequence (units : List NodeId)
  | sequenceWith (spec : LookaheadSpec) (units : List NodeId)
  | choice (alternatives : List NodeId)
  | oneOrMore (body : NodeId)
  | zeroOrMore (body : NodeId)
  | zeroOrOne (body : NodeId)
  | addProduction (name : String) (expansion : NodeId)
  | addCodeProduction (name : String)
  | link (ds : Diagnostics)
  | buildLexer (ctx : Context)

/-- The grammar after a call. -/
def run (g : Grammar) : Call → Grammar
  | .setPosition p => g.setPosition p
  | .lexicalState name => (g.lexicalState name).2
  | .addToken spec => (g.addToken spec).2
  | .privateRegex label r => (g.privateRegex label r).2
  | .literal image => (g.literal image).2
  | .token label => (g.token label).2
  | .eof => g.eof.2
  | .nonterminal name => (g.nonterminal name).2
  | .action code => (g.action code).2
  | .lookahead spec => (g.lookahead spec).2
  | .sequence units => (g.sequence units).2
  | .sequenceWith spec units => (g.sequenceWith spec units).2
  | .choice alternatives => (g.choice alternatives).2
  | .oneOrMore body => (g.oneOrMore body).2
  | .zeroOrMore body => (g.zeroOrMore body).2
  | .zeroOrOne body => (g.zeroOrOne body).2
  | .addProduction name expansion => (g.addProduction name expansion).2
  | .addCodeProduction name => (g.addCodeProduction name).2
  | .link ds => (g.link ds).1
  | .buildLexer ctx => (Lexer.build g ctx).2.1

/-- The grammar that a row of calls leaves. -/
def written (calls : List Call) : Grammar := calls.foldl run empty

/-! ## The lexical states that are entered -/

/-- Deferring a fault keeps the lexical states. -/
@[simp]
lemma lexicalStates_deferIf (g : Grammar) (c : Bool) (fault : GrammarFault) :
    (g.deferIf c fault).lexicalStates = g.lexicalStates := by
  rw [deferIf]
  split_ifs <;> rfl

/-- Naming an expression keeps the lexical states. -/
@[simp]
lemma lexicalStates_nameRegex (g : Grammar) (label : String) (slot : Nat) :
    (g.nameRegex label slot).lexicalStates = g.lexicalStates := by
  simp [nameRegex]

/-- **The lexical states that are entered are known**: the one in which scanning begins, those that
follow tokens, and those that follow the end of the input. -/
structure StatesKnown (g : Grammar) : Prop where
  start : 0 < g.lexicalStates.size
  tokens : ∀ d ∈ g.tokens, ∀ n ∈ d.nextState, n < g.lexicalStates.size
  eofRules : ∀ rule ∈ g.eofRules, ∀ n ∈ rule.nextState, n < g.lexicalStates.size

namespace StatesKnown

variable {g : Grammar}

/-- In the empty grammar all lexical states are known. -/
lemma empty : StatesKnown Grammar.empty := by
  refine ⟨by decide, ?_, ?_⟩
  · simp [Grammar.empty]
  · simp [Grammar.empty]

/-- Only the tokens, the rules and the lexical states matter; more lexical states do no harm. -/
lemma of_eq (h : StatesKnown g) {g' : Grammar} (htokens : g'.tokens = g.tokens)
    (hrules : g'.eofRules = g.eofRules)
    (hstates : g.lexicalStates.size ≤ g'.lexicalStates.size) : StatesKnown g' := by
  refine ⟨h.start.trans_le hstates, ?_, ?_⟩
  · rw [htokens]
    exact fun d hd n hn => (h.tokens d hd n hn).trans_le hstates
  · rw [hrules]
    exact fun rule hrule n hn => (h.eofRules rule hrule n hn).trans_le hstates

/-- Deferring a fault. -/
lemma deferIf (h : StatesKnown g) (c : Bool) (fault : GrammarFault) :
    StatesKnown (g.deferIf c fault) := by
  rw [Grammar.deferIf]
  split_ifs
  · exact h.of_eq rfl rfl le_rfl
  · exact h

/-- Adding an expression. -/
lemma addRegex (h : StatesKnown g) (r : Regex) : StatesKnown (g.addRegex r).2 :=
  h.of_eq rfl rfl le_rfl

/-- Naming an expression. -/
lemma nameRegex (h : StatesKnown g) (label : String) (slot : Nat) :
    StatesKnown (g.nameRegex label slot) := by
  have hnamed : StatesKnown { g with regexNames := g.regexNames.insert label slot } :=
    h.of_eq rfl rfl le_rfl
  exact hnamed.deferIf _ _

/-! ### Tokens -/

/-- The lexical states of a definition get numbers, and so does the one that follows it.

**Proof sketch.** The names of the states are interned first, then that of the next one, so that its
number is in range; the table only grows. -/
lemma resolveStates (h : StatesKnown g) (spec : TokenSpec) : StatesKnown (g.resolveStates spec).2 ∧
    ∀ n ∈ (g.resolveStates spec).1.2, n < (g.resolveStates spec).2.lexicalStates.size := by
  rw [Grammar.resolveStates]
  set named := if spec.states.isEmpty then ([0], g.lexicalStates)
    else g.lexicalStates.internAll spec.states with hnamed
  have hle : g.lexicalStates.size ≤ named.2.size := by
    rw [hnamed]
    split_ifs
    · exact le_rfl
    · exact NameTable.size_le_internAll _ _
  cases spec.nextState with
  | none =>
    refine ⟨h.of_eq rfl rfl hle, fun n hn => ?_⟩
    cases hn
  | some name =>
    obtain ⟨hlt, hsize⟩ := named.2.intern_lt name
    refine ⟨h.of_eq rfl rfl (hle.trans hsize), fun n hn => ?_⟩
    obtain rfl := Option.mem_some_iff.mp hn
    exact hlt

/-- Adding a token whose next state is known. -/
lemma pushToken (h : StatesKnown g) {d : TokenDef}
    (hd : ∀ n ∈ d.nextState, n < g.lexicalStates.size) :
    StatesKnown { g with tokens := g.tokens.push d } := by
  refine ⟨h.start, fun e he => ?_, h.eofRules⟩
  rcases Array.mem_push.mp he with he | rfl
  · exact h.tokens e he
  · exact hd

/-- Adding a token with a name. -/
lemma pushNamed (h : StatesKnown g) {d : TokenDef}
    (hd : ∀ n ∈ d.nextState, n < g.lexicalStates.size) (label : String) (slot : Nat) :
    StatesKnown { g.nameRegex label slot with tokens := (g.nameRegex label slot).tokens.push d } := by
  refine (h.nameRegex label slot).pushToken ?_
  rwa [lexicalStates_nameRegex]

/-- Adding a rule for the end of the text. -/
lemma pushEofRule (h : StatesKnown g) {rule : EofRule}
    (hrule : ∀ n ∈ rule.nextState, n < g.lexicalStates.size) :
    StatesKnown { g with eofRules := g.eofRules.push rule } := by
  refine ⟨h.start, h.tokens, fun e he => ?_⟩
  rcases Array.mem_push.mp he with he | rfl
  · exact h.eofRules e he
  · exact hrule

/-- **A token definition** names lexical states before it uses their numbers.

**Proof sketch.** Along the cases of the definition. The states are resolved before anything is added,
and the rules and tokens that are added use their numbers. -/
lemma addToken (h : StatesKnown g) (spec : TokenSpec) : StatesKnown (g.addToken spec).2 := by
  obtain ⟨hstates, hnext⟩ := h.resolveStates spec
  rw [Grammar.addToken]
  generalize g.resolveStates spec = resolved at hstates hnext ⊢
  obtain ⟨⟨states, next⟩, g₁⟩ := resolved
  dsimp only at hstates hnext ⊢
  split
  · exact hstates.pushEofRule hnext
  · cases literalText? spec.regex with
    | none =>
      have hslot := hstates.addRegex spec.regex
      cases spec.label with
      | none => exact hslot.pushToken hnext
      | some label => exact hslot.pushNamed hnext label _
    | some image =>
      have hslot := (hstates.deferIf (g₁.literalTaken image states)
        (.duplicateLiteral image)).addRegex spec.regex
      rw [← lexicalStates_deferIf g₁ (g₁.literalTaken image states)
        (.duplicateLiteral image)] at hnext
      cases spec.label with
      | none => exact hslot.pushToken hnext
      | some label => exact hslot.pushNamed hnext label _

/-- Defining a private expression. -/
lemma privateRegex (h : StatesKnown g) (label : String) (r : Regex) :
    StatesKnown (g.privateRegex label r).2 := (h.addRegex r).nameRegex label _

/-! ### Nodes and productions -/

/-- Adding a node. -/
lemma addNode (h : StatesKnown g) (kind : NodeKind) : StatesKnown (g.addNode kind).2 :=
  h.of_eq rfl rfl le_rfl

/-- Adding a node at a position. -/
lemma addNodeAt (h : StatesKnown g) (p : Position) (kind : NodeKind) :
    StatesKnown (g.addNodeAt p kind).2 := h.of_eq rfl rfl le_rfl

/-- Writing a literal. -/
lemma literal (h : StatesKnown g) (image : String) : StatesKnown (g.literal image).2 := by
  rw [Grammar.literal]
  cases g.tokens.findIdx? (meansLiteral image) with
  | some ordinal => exact h.addNode (.token ordinal)
  | none =>
    have hadded := h.addToken { regex := .literal image }
    exact hadded.addNode (.token (g.addToken { regex := .literal image }).1)

/-- Writing a sequence. -/
lemma sequence (h : StatesKnown g) (units : List NodeId) : StatesKnown (g.sequence units).2 := by
  rw [Grammar.sequence]
  split
  · exact h.addNodeAt _ _
  · exact (h.addNodeAt _ _).addNodeAt _ _

/-- Making sequences of alternatives. -/
lemma asSequences : ∀ (alternatives : List NodeId) {g : Grammar}, StatesKnown g →
    StatesKnown (g.asSequences alternatives).2
  | [], _, h => h
  | a :: alternatives, g, h => by
    rw [Grammar.asSequences]
    by_cases ha : (g.kind a).isSequence
    · rw [if_pos ha]
      exact asSequences alternatives h
    · rw [if_neg ha]
      exact asSequences alternatives (h.sequence [a])

/-- Writing a choice. -/
lemma choice (h : StatesKnown g) (alternatives : List NodeId) :
    StatesKnown (g.choice alternatives).2 := by
  match alternatives with
  | [] => exact (asSequences [] h).addNodeAt _ _
  | [a] => exact h
  | a :: b :: rest => exact (asSequences (a :: b :: rest) h).addNodeAt _ _

/-- Defining a production. -/
lemma defineProduction (h : StatesKnown g) (name : String) (expansion : Option NodeId) :
    StatesKnown (g.defineProduction name expansion).2 :=
  (h.deferIf (g.productionNames.index? name).isSome (.duplicateProduction name)).of_eq rfl rfl le_rfl

/-! ### Linking and building -/

/-- Linking. -/
lemma link (h : StatesKnown g) (ds : Diagnostics) : StatesKnown (g.link ds).1 := by
  obtain ⟨hsame, -, -⟩ := g.link_tokens ds
  refine h.of_eq hsame.tokens hsame.eofRules ?_
  rw [hsame.lexicalStates]

/-- Building a scanner changes the expressions of a grammar only. -/
lemma buildLexer (h : StatesKnown g) (ctx : Context) : StatesKnown (Lexer.build g ctx).2.1 := by
  let R := fun g g' : Grammar => StatesKnown g → StatesKnown g'
  have hstep : ∀ g ctx mode, R g (Lexer.buildState g ctx mode).2.1 := by
    intro g ctx mode h
    obtain ⟨ds, hds⟩ := Lexer.buildState_snd g ctx mode
    rw [hds]
    exact h.of_eq rfl rfl le_rfl
  have hrefl : ∀ g, R g g := fun _ => id
  exact Lexer.build_keeps hrefl (fun h₁ h₂ h => h₂ (h₁ h)) hstep g ctx h

/-- **Every call keeps the lexical states known.**

**Proof sketch.** One case per call; only lexical states and definitions of tokens concern the states,
and both are known afterwards. -/
lemma run (h : StatesKnown g) (call : Call) : StatesKnown (g.run call) := by
  cases call with
  | setPosition p => exact h.of_eq rfl rfl le_rfl
  | lexicalState name => exact h.of_eq rfl rfl (g.lexicalStates.intern_lt name).2
  | addToken spec => exact h.addToken spec
  | privateRegex label r => exact h.privateRegex label r
  | literal image => exact h.literal image
  | token label => exact h.of_eq rfl rfl le_rfl
  | eof => exact h.addNode _
  | nonterminal name => exact h.addNode _
  | action code => exact h.addNode _
  | lookahead spec => exact h.addNode _
  | sequence units => exact h.sequence units
  | sequenceWith spec units => exact (h.addNodeAt _ _).sequence _
  | choice alternatives => exact h.choice alternatives
  | oneOrMore body | zeroOrMore body | zeroOrOne body => exact h.addNode _
  | addProduction name expansion => exact h.defineProduction name _
  | addCodeProduction name => exact h.defineProduction name _
  | link ds => exact h.link ds
  | buildLexer ctx => exact h.buildLexer ctx

end StatesKnown

/-- **In every grammar that is written** the lexical states that are entered are known. -/
lemma statesKnown_written (calls : List Call) : StatesKnown (written calls) :=
  List.foldlRecOn calls Grammar.run StatesKnown.empty fun _ h call _ => h.run call

end Grammar

end GrammarForge
