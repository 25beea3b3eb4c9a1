import GrammarForge.Diagnostics
import GrammarForge.Options

set_option autoImplicit false

/-!
# Compilation contexts

Every compilation has a context of its own: the options it goes by and the diagnostics it has
reported so far.

## Main definitions

* `Context` — options and diagnostics.
-/

namespace GrammarForge

/-- What a compilation goes by and what it has reported. -/
structure Context where
  options : Options := {}
  diagnostics : Diagnostics := {}
deriving DecidableEq, Repr, Inhabited

end GrammarForge
