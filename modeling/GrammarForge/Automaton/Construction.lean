import GrammarForge.Automaton.Basic
import GrammarForge.Diagnostics
import GrammarForge.Regex.Normalize

set_option autoImplicit false

/-!
# Automata from regular expressions

Each regular expression becomes a fragment: a first state, a last state, and the states in
between. The fragment of a compound expression is built around those of its parts.

Named expressions are kept in slots. A reference takes the named expression out of its slot
for the time its fragment is built, so that an expression that refers to itself finds its slot
empty; such a circular reference is reported and matches nothing but the empty text.

## Main definitions

* `Construction` — the automaton, the slots and the diagnostics.
* `Build` — steps of a construction.
* `buildWith` — the fragment of a normalized expression, given what references do.
* `build` — the fragment of an expression, with references taken from the slots.
* `construct` — the fragment of an expression and what is left of the expression.
-/

namespace GrammarForge

/-- An automaton under construction. -/
structure Construction where
  automaton : Automaton := {}
  /-- The named expressions; an empty slot is in use, or has never been filled. -/
  slots : Array (Option Regex) := #[]
  diagnostics : Diagnostics := {}
deriving Inhabited

/-- A step of a construction. -/
abbrev Build (α : Type) := StateM Construction α

/-- How expressions of a token definition are read. -/
structure BuildMode where
  /-- Whether letter case is ignored. -/
  ignoreCase : Bool
  /-- The place of the definition. -/
  position : Position
deriving DecidableEq, Repr

/-- What can be wrong with a regular expression. -/
inductive RegexFault where
  | circular (label : String)
  | innerEndOfInput
  | emptyCharList
  | emptyChoice
deriving DecidableEq, Repr

/-- The wording of a fault. -/
def RegexFault.message : RegexFault → String
  | circular label => "Loop in regular expression detected: \"<" ++ label ++ ">\""
  | innerEndOfInput => "<EOF> cannot be used inside a regular expression"
  | emptyCharList => "Empty character set is not allowed as it will not match any character."
  | emptyChoice => "Empty choice will not match anything."

namespace Build

/-- Adds a state. -/
def newState : Build Nat := fun c =>
  let (i, a) := c.automaton.newState
  (i, { c with automaton := a })

/-- Adds the two states of a fragment. -/
def newFragment : Build Fragment := fun c =>
  let (f, a) := c.automaton.newFragment
  (f, { c with automaton := a })

/-- Adds an epsilon move. -/
def epsilon (source target : Nat) : Build Unit := fun c =>
  ((), { c with automaton := c.automaton.addEpsilon source target })

/-- Changes a state. -/
def modifyState (i : Nat) (f : State → State) : Build Unit := fun c =>
  ((), { c with automaton := c.automaton.modify i f })

/-- Reports a fault at the place of the definition. -/
def report (m : BuildMode) (fault : RegexFault) : Build Unit := fun c =>
  ((), { c with diagnostics := c.diagnostics.semanticError m.position fault.message })

/-- A fragment for the empty text. -/
def emptyText : Build Fragment := do
  let f ← newFragment
  epsilon f.first f.last
  return f

/-- Reports a fault; the fragment for the empty text keeps the automaton well formed. -/
def faulty (m : BuildMode) (fault : RegexFault) : Build Fragment := do
  report m fault
  emptyText

/-- Adds the characters of an item to a table. -/
def addItem (t : MoveTable) : CharItem → MoveTable
  | .single c => t.addChar c
  | .range lo hi => t.addRange lo hi

/-- A fragment for one character of a normalized list. -/
def oneOf (m : BuildMode) (l : CharList) : Build Fragment :=
  if l.isEmpty then faulty m .emptyCharList
  else do
    let f ← newFragment
    modifyState f.first fun s =>
      { s with moves := l.items.foldl addItem s.moves, next := some f.last }
    return f

/-- The moves of a state that reads `c`. -/
def charMoves (ignoreCase : Bool) (t : MoveTable) (c : Char) : MoveTable :=
  let t := t.addChar c
  if ignoreCase then (caseVariants c).foldl MoveTable.addChar t else t

/-- Reads the characters of a text one after the other, from state `i` to state `last`. -/
def spell (ignoreCase : Bool) (last : Nat) : Nat → List Char → Build Unit
  | _, [] => pure ()
  | i, [c] => link i c last
  | i, c :: cs => do
    let j ← newState
    link i c j
    spell ignoreCase last j cs
where
  /-- A move from `i` to `j` on `c`. -/
  link (i : Nat) (c : Char) (j : Nat) : Build Unit :=
    modifyState i fun s => { s with moves := charMoves ignoreCase s.moves c, next := some j }

/-- A fragment for a literal text. A literal of one character is a character list. -/
def text (m : BuildMode) : List Char → Build Fragment
  | [] => emptyText
  | [c] => oneOf m ((CharList.ofItems [.single c]).normalize m.ignoreCase)
  | cs => do
    let f ← newFragment
    spell m.ignoreCase f.last f.first cs
    return f

/-- Builds the alternatives inside the fragment `f`. -/
def branches (f : Fragment) : List (Build Fragment) → Build Unit
  | [] => pure ()
  | b :: bs => do
    let inner ← b
    epsilon f.first inner.first
    epsilon inner.last f.last
    branches f bs

/-- A fragment for any one of several expressions. -/
def anyOf (m : BuildMode) : List (Build Fragment) → Build Fragment
  | [] => faulty m .emptyChoice
  | [b] => b
  | bs => do
    let f ← newFragment
    branches f bs
    return f

/-- Builds the units one after the other from state `i` on, and says where they end. -/
def chain : Nat → List (Build Fragment) → Build Nat
  | i, [] => return i
  | i, b :: bs => do
    let inner ← b
    epsilon i inner.first
    chain inner.last bs

/-- A fragment for several expressions in a row. -/
def allOf : List (Build Fragment) → Build Fragment
  | [] => emptyText
  | [b] => b
  | bs => do
    let f ← newFragment
    let i ← chain f.first bs
    epsilon i f.last
    return f

/-- A fragment for one or more copies. -/
def plus (b : Build Fragment) : Build Fragment := do
  let f ← newFragment
  let inner ← b
  epsilon f.first inner.first
  epsilon inner.last inner.first
  epsilon inner.last f.last
  return f

/-- A fragment for any number of copies. -/
def star (b : Build Fragment) : Build Fragment := do
  let f ← newFragment
  let inner ← b
  epsilon f.first inner.first
  epsilon f.first f.last
  epsilon inner.last f.last
  epsilon inner.last inner.first
  return f

/-- A fragment for one copy or none. -/
def optional (b : Build Fragment) : Build Fragment := do
  let f ← newFragment
  let inner ← b
  epsilon f.first inner.first
  epsilon f.first f.last
  epsilon inner.last f.last
  return f

/-- The units of a counted repetition: `min` copies, then either any number of further ones
or optional ones up to `max`. -/
def copies (b : Build Fragment) (min : Nat) : Option Nat → List (Build Fragment)
  | none => List.replicate min b ++ [star b]
  | some max => List.replicate min b ++ List.replicate (max - min) (optional b)

/-- Takes an expression out of its slot. -/
def takeSlot (i : Nat) : Build (Option Regex) := fun c =>
  match c.slots.getD i none with
  | none => (none, c)
  | some r => (some r, { c with slots := c.slots.setIfInBounds i none })

/-- Puts an expression into its slot. -/
def putSlot (i : Nat) (r : Regex) : Build Unit := fun c =>
  ((), { c with slots := c.slots.setIfInBounds i (some r) })

end Build

open Build

mutual

/-- The fragment of a normalized expression; `named` builds the references. -/
def buildWith (m : BuildMode) (named : String → Option Nat → Build Fragment) :
    Regex → Build Fragment
  | .chars l => oneOf m l
  | .choice rs => anyOf m (buildAllWith m named rs)
  | .sequence rs => allOf (buildAllWith m named rs)
  | .oneOrMore r => plus (buildWith m named r)
  | .zeroOrMore r => star (buildWith m named r)
  | .zeroOrOne r => optional (buildWith m named r)
  | .literal s => text m s.toList
  | .repetition r min max => allOf (copies (buildWith m named r) min max)
  | .reference label target => named label target
  | .endOfInput => faulty m .innerEndOfInput

/-- The fragments of several normalized expressions. -/
def buildAllWith (m : BuildMode) (named : String → Option Nat → Build Fragment) :
    List Regex → List (Build Fragment)
  | [] => []
  | r :: rs => buildWith m named r :: buildAllWith m named rs

end

/-- The fragment of a reference, where `inner` builds the expression found in the slot. A
reference without a target has been reported before. -/
def buildNamed (m : BuildMode) (inner : Regex → Build Fragment) (label : String) :
    Option Nat → Build Fragment
  | none => emptyText
  | some i => do
    match ← takeSlot i with
    | none => faulty m (.circular label)
    | some r =>
      let f ← inner r
      putSlot i (r.normalize m.ignoreCase false)
      return f

/-- The fragment of an expression, with references followed `depth` levels deep. A reference
that is followed empties a slot, so the number of full slots is depth enough; when no slot is
full, every reference meets an empty one. -/
def build (m : BuildMode) : Nat → Regex → Build Fragment
  | 0, r =>
    buildWith m (fun label target => if target.isSome then faulty m (.circular label) else emptyText)
      (r.normalize m.ignoreCase true)
  | depth + 1, r =>
    buildWith m (buildNamed m (build m depth)) (r.normalize m.ignoreCase true)

/-- The number of full slots. -/
def Construction.fullSlots (c : Construction) : Nat := c.slots.countP Option.isSome

/-- Builds the fragment of an expression. The second result is what is left of the
expression: its lists and choices are in normal form now. -/
def construct (m : BuildMode) (r : Regex) : Build (Fragment × Regex) := fun c =>
  let (f, c) := build m c.fullSlots r c
  ((f, r.normalize m.ignoreCase false), c)

end GrammarForge
