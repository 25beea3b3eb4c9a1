import GrammarForge.Regex.Basic

set_option autoImplicit false

/-!
# Normal form of regular expressions

Before an automaton is built, character lists are normalized and each choice is flattened:
the alternatives of nested choices become its own, and all alternatives that match single
characters are joined into one list, which stands where the first of them stood.

The body of a counted repetition is copied when the automaton is built, and it is the copies
that are normalized. `Regex.normalize` therefore has two forms: with `copies` it also enters
such bodies, which is what the automaton is built from; without, it leaves them alone, which
is what remains of an expression after it has been used.

## Main definitions

* `Regex.asCharList?` — the list of an expression that matches single characters.
* `Regex.mergeCharLists` — joins such alternatives of a choice.
* `Regex.normalize` — the normal form.
-/

namespace GrammarForge

namespace Regex

/-- The normalized list of a character list or of a literal of one character. -/
def asCharList? (ignoreCase : Bool) : Regex → Option CharList
  | chars l => some (l.normalize ignoreCase)
  | literal s =>
    match s.toList with
    | [c] => some ((CharList.ofItems [.single c]).normalize ignoreCase)
    | _ => none
  | _ => none

/-- Whether an expression matches single characters by a list. -/
def isCharList (r : Regex) : Bool := (r.asCharList? false).isSome

/-- The list `merged` in place of the first alternative that matches single characters,
without the later ones. -/
def placeMerged (merged : CharList) : List Regex → List Regex
  | [] => []
  | r :: rs =>
    if r.isCharList then chars merged :: rs.filter (!·.isCharList)
    else r :: placeMerged merged rs

/-- Joins all alternatives that match single characters into one. -/
def mergeCharLists (ignoreCase : Bool) (rs : List Regex) : List Regex :=
  match rs.filterMap (asCharList? ignoreCase) with
  | [] => rs
  | l :: ls =>
    let all := { l with items := l.items ++ ls.flatMap CharList.items }
    placeMerged { all.sort with normalized := true } rs

/-- The alternatives that an alternative brings in. -/
def splice : Regex → List Regex
  | choice rs => rs
  | r => [r]

mutual

/-- The normal form of an expression; `copies` says whether counted bodies are entered. -/
def normalize (ignoreCase copies : Bool) : Regex → Regex
  | chars l => chars (l.normalize ignoreCase)
  | choice rs =>
    choice (mergeCharLists ignoreCase ((normalizeAll ignoreCase copies rs).flatMap splice))
  | sequence rs => sequence (normalizeAll ignoreCase copies rs)
  | oneOrMore r => oneOrMore (r.normalize ignoreCase copies)
  | zeroOrMore r => zeroOrMore (r.normalize ignoreCase copies)
  | zeroOrOne r => zeroOrOne (r.normalize ignoreCase copies)
  | repetition r min max =>
    repetition (if copies then r.normalize ignoreCase copies else r) min max
  | literal s => literal s
  | reference label target => reference label target
  | endOfInput => endOfInput

/-- The normal forms of several expressions. -/
def normalizeAll (ignoreCase copies : Bool) : List Regex → List Regex
  | [] => []
  | r :: rs => r.normalize ignoreCase copies :: normalizeAll ignoreCase copies rs

end

end Regex

end GrammarForge
