import GrammarForge.Grammar.Link
import GrammarForge.LexicalState
import GrammarForge.Lookahead.Conflict
import GrammarForge.Lookahead.Plan

set_option autoImplicit false

/-!
# Compiling grammars

A compilation links a grammar, builds its scanner, checks its choice points for conflicts and
plans its lookahead.

## Main definitions

* `CompiledGrammar` — what a compilation gives.
* `Grammar.compileIn` — a compilation in a given context; semantic errors do not end it.
* `Grammar.compile` — a compilation of its own, which fails on semantic errors.
-/

namespace GrammarForge

/-- What a compilation gives. -/
structure CompiledGrammar where
  lexer : Lexer
  plan : Plan
  conflicts : List Conflict
  diagnostics : Diagnostics
deriving DecidableEq, Repr, Inhabited

/-- Why a compilation fails. -/
inductive CompileFailure where
  /-- The grammar is not what it has to be. -/
  | broken (e : CompileError)
  /-- Semantic errors have been reported. -/
  | semanticErrors (ds : Diagnostics)
deriving DecidableEq, Repr

/-- The wording of a failure. -/
def CompileFailure.message : CompileFailure → String
  | broken e => e.message
  | semanticErrors ds =>
    "grammar has " ++ toString ds.errorCount ++ " error(s) and " ++ toString ds.warningCount ++
      " warning(s); first: " ++ ((ds.firstError?.map Diagnostic.describe).getD "")

namespace Grammar

/-- The first mentioned id that belongs to no node. -/
def unknownId? (g : Grammar) : Option NodeId :=
  g.mentionedIds.find? fun id => g.nodes.size ≤ id

/-- Links a grammar unless it is linked. -/
def linkOnce (g : Grammar) (ctx : Context) : Grammar × Context :=
  if g.linked then (g, ctx)
  else
    let (g, ds) := g.link ctx.diagnostics
    (g, { ctx with diagnostics := ds })

/-- Checks the choice points of a linked grammar, unless the options or earlier errors make the
check pointless. -/
def checkConflicts (g : Grammar) (ctx : Context) : List Conflict × Context :=
  let o := ctx.options
  if (o.lookahead = 1 || o.forceLookaheadCheck) && !ctx.diagnostics.hasErrors then
    let (cs, c) := Checker.checkAll g o (Checker.new g ctx.diagnostics)
    (cs, { ctx with diagnostics := c.diagnostics })
  else ([], ctx)

/-- Compiles a grammar; what is wrong with it is reported in the context. -/
def compileIn (g : Grammar) (ctx : Context) : Lexer.Built CompiledGrammar :=
  match g.unknownId? with
  | some id => (.error (.unknownNode id), g, ctx)
  | none =>
    let (g, ctx) := g.linkOnce ctx
    match Lexer.build g ctx with
    | (.error e, g, ctx) => (.error e, g, ctx)
    | (.ok lexer, g, ctx) =>
      let (conflicts, ctx) := g.checkConflicts ctx
      (.ok ⟨lexer, g.plan ctx.options.lookahead, conflicts, ctx.diagnostics⟩, g, ctx)

/-- Compiles a grammar, and fails if a semantic error was reported. -/
def compile (g : Grammar) (o : Options) : Except CompileFailure CompiledGrammar × Grammar :=
  match g.compileIn { options := o } with
  | (.error e, g, _) => (.error (.broken e), g)
  | (.ok c, g, _) =>
    if c.diagnostics.hasErrors then (.error (.semanticErrors c.diagnostics), g) else (.ok c, g)

end Grammar

end GrammarForge
