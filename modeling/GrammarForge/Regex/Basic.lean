import GrammarForge.CharList
import GrammarForge.OrderedMap

set_option autoImplicit false

/-!
# Token regular expressions

The regular expressions of token definitions. An expression may refer to another one by its
label; the reference holds the slot of the named expression once it has been resolved.

## Main definitions

* `Regex` — the expressions.
* `Regex.references` — the references in an expression, from left to right.
* `Regex.resolve` — fills in the slots of the references.
-/

namespace GrammarForge

/-- A token regular expression. -/
inductive Regex where
  /-- One character of a list. -/
  | chars (list : CharList)
  /-- Any one of the alternatives. -/
  | choice (alternatives : List Regex)
  /-- The units one after the other. -/
  | sequence (units : List Regex)
  /-- The body once or more often. -/
  | oneOrMore (body : Regex)
  /-- The body any number of times. -/
  | zeroOrMore (body : Regex)
  /-- The body or nothing. -/
  | zeroOrOne (body : Regex)
  /-- A literal text. -/
  | literal (image : String)
  /-- The body at least `min` times, and at most `max` times if that is more. -/
  | repetition (body : Regex) (min : Nat) (max : Option Nat)
  /-- The expression of another label, kept in the slot `target`. -/
  | reference (label : String) (target : Option Nat)
  /-- The end of the input. -/
  | endOfInput
deriving Repr, Inhabited

namespace Regex

mutual

/-- The references in an expression with their targets, from left to right. -/
def references : Regex → List (String × Option Nat)
  | reference label target => [(label, target)]
  | choice rs | sequence rs => referencesAll rs
  | oneOrMore r | zeroOrMore r | zeroOrOne r | repetition r _ _ => r.references
  | chars _ | literal _ | endOfInput => []

/-- The references in several expressions, from left to right. -/
def referencesAll : List Regex → List (String × Option Nat)
  | [] => []
  | r :: rs => r.references ++ referencesAll rs

end

mutual

/-- Points every reference to the slot of its label; unknown labels are left as they are. -/
def resolve (slots : OrderedMap String Nat) : Regex → Regex
  | reference label target => reference label ((slots.get? label).or target)
  | choice rs => choice (resolveAll slots rs)
  | sequence rs => sequence (resolveAll slots rs)
  | oneOrMore r => oneOrMore (r.resolve slots)
  | zeroOrMore r => zeroOrMore (r.resolve slots)
  | zeroOrOne r => zeroOrOne (r.resolve slots)
  | repetition r min max => repetition (r.resolve slots) min max
  | chars l => chars l
  | literal s => literal s
  | endOfInput => endOfInput

/-- Resolves the references of several expressions. -/
def resolveAll (slots : OrderedMap String Nat) : List Regex → List Regex
  | [] => []
  | r :: rs => r.resolve slots :: resolveAll slots rs

end

/-- The labels of an expression's references that have no slot, from left to right. -/
def undefinedLabels (slots : OrderedMap String Nat) (r : Regex) : List String :=
  (r.references.map Prod.fst).filter fun label => !slots.contains label

end Regex

end GrammarForge
