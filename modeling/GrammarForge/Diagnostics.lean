import GrammarForge.Text.Position

set_option autoImplicit false

/-!
# Diagnostics

What a compilation has to say about a grammar. Diagnostics are kept in the order in which
they were reported; a semantic error marks the grammar as unusable, a warning does not.

## Main definitions

* `Diagnostic` — one reported problem.
* `Diagnostics` — all problems of a compilation, in order.
-/

namespace GrammarForge

/-- How bad a problem is. -/
inductive Severity where
  | warning
  | semanticError
deriving DecidableEq, Repr

/-- One reported problem. -/
structure Diagnostic where
  severity : Severity
  position : Position
  message : String
deriving DecidableEq, Repr

/-- How a problem is written: its severity, its place and its message. -/
def Diagnostic.describe (d : Diagnostic) : String :=
  let label := match d.severity with
    | .warning => "Warning"
    | .semanticError => "Error"
  label ++ ": " ++ d.position.describe ++ ": " ++ d.message

/-- The problems reported so far, oldest first. -/
structure Diagnostics where
  entries : Array Diagnostic := #[]
deriving DecidableEq, Repr, Inhabited

namespace Diagnostics

/-- Reports a warning. -/
def warning (ds : Diagnostics) (place : Position) (message : String) : Diagnostics :=
  ⟨ds.entries.push ⟨.warning, place, message⟩⟩

/-- Reports a semantic error. -/
def semanticError (ds : Diagnostics) (place : Position) (message : String) : Diagnostics :=
  ⟨ds.entries.push ⟨.semanticError, place, message⟩⟩

/-- The number of warnings. -/
def warningCount (ds : Diagnostics) : Nat :=
  ds.entries.countP (·.severity = .warning)

/-- The number of semantic errors. -/
def errorCount (ds : Diagnostics) : Nat :=
  ds.entries.countP (·.severity = .semanticError)

/-- Whether a semantic error has been reported. -/
def hasErrors (ds : Diagnostics) : Bool := 0 < ds.errorCount

/-- The first semantic error. -/
def firstError? (ds : Diagnostics) : Option Diagnostic :=
  ds.entries.find? (·.severity = .semanticError)

/-- Whether `needle` occurs in `text` as a run of consecutive characters. -/
def occursIn (needle : List Char) : List Char → Bool
  | [] => needle.isEmpty
  | c :: cs => needle.isPrefixOf (c :: cs) || occursIn needle cs

/-- Whether some message contains `needle`. -/
def mentions (ds : Diagnostics) (needle : String) : Bool :=
  ds.entries.any fun d => occursIn needle.toList d.message.toList

/-- A warning is counted as one warning. -/
@[simp]
theorem warningCount_warning (ds : Diagnostics) (p : Position) (m : String) :
    (ds.warning p m).warningCount = ds.warningCount + 1 := by
  simp [warning, warningCount]

/-- A warning is not counted as an error. -/
@[simp]
theorem errorCount_warning (ds : Diagnostics) (p : Position) (m : String) :
    (ds.warning p m).errorCount = ds.errorCount := by
  simp [warning, errorCount]

/-- A semantic error is counted as one error. -/
@[simp]
theorem errorCount_semanticError (ds : Diagnostics) (p : Position) (m : String) :
    (ds.semanticError p m).errorCount = ds.errorCount + 1 := by
  simp [semanticError, errorCount]

end Diagnostics

end GrammarForge
