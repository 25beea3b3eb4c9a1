set_option autoImplicit false

/-!
# Compilation errors

Most of what can be wrong with a grammar is reported as a diagnostic and the compilation goes
on. The errors here end it: the grammar, or an automaton, is not what it has to be.

## Main definitions

* `CompileError` — why a compilation is given up.
* `CompileError.message` — its wording.
-/

namespace GrammarForge

/-- Why a compilation is given up. -/
inductive CompileError where
  /-- A state cannot take over its own moves. -/
  | selfMerge
  /-- The regular expression of this token is not there. -/
  | missingRegex (ordinal : Nat)
  /-- A node id that belongs to no node. -/
  | unknownNode (id : Nat)
deriving DecidableEq, Repr

/-- The wording of a compilation error. -/
def CompileError.message : CompileError → String
  | selfMerge => "internal error: attempt to merge the move table of a state with itself"
  | missingRegex ordinal =>
    "internal error: regular expression of token " ++ toString ordinal ++ " is missing"
  | unknownNode id => "expansion node " ++ toString id ++ " does not exist"

end GrammarForge
