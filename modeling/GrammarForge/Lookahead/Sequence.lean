set_option autoImplicit false

/-!
# Token sequences

A lookahead compares sequences of token kinds. Two sequences agree as far as the shorter one
reaches if that one begins the other.

## Main definitions

* `TokenSeq` — sequences of token kinds.
* `TokenSeq.agreement?` — the shorter of two sequences, if it begins the longer one.
* `overlap?` — the first agreement between two lists of sequences.
-/

namespace GrammarForge

/-- A sequence of token kinds. -/
abbrev TokenSeq := List Nat

/-- The shorter of two sequences, if the longer one begins with it. -/
def TokenSeq.agreement? (a b : TokenSeq) : Option TokenSeq :=
  let shorter := if a.length ≤ b.length then a else b
  if a.take shorter.length = b.take shorter.length then some shorter else none

/-- What a comparison with the sequences `right` gives for `a`: `some (some m)` for the first
agreement `m`, `some none` if an empty sequence ends the search, `none` if it goes on. -/
def overlapWith? (a : TokenSeq) : List TokenSeq → Option (Option TokenSeq)
  | [] => none
  | b :: bs =>
    if a.isEmpty || b.isEmpty then some none
    else
      match a.agreement? b with
      | some m => some (some m)
      | none => overlapWith? a bs

/-- The first agreement of a sequence on the left with one on the right. An empty sequence
agrees with everything; meeting one ends the search without a result. -/
def overlap? (left right : List TokenSeq) : Option TokenSeq :=
  ((left.findSome? fun a => overlapWith? a right).getD none)

end GrammarForge
