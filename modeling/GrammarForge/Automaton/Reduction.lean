import GrammarForge.Automaton.Closure
import GrammarForge.OrderedMap

set_option autoImplicit false

/-!
# State reduction

Inside each epsilon closure, states are merged in two ways. States that move on the same
characters become one state, whose next state leads to all of theirs. States with the same
next state become one state that moves on the characters of all of them. This is repeated
until nothing more can be merged. New states are closed afterwards; the old ones keep their
reduced closures.

## Main definitions

* `Reduction` — the automaton being reduced and the merged states made so far.
* `Reduction.mergeTwins`, `Reduction.mergeByNext` — the two ways of merging.
* `Reduction.reduceState` — reduces the closure of one state.
* `Automaton.closures` — closure, followed by reduction if asked for.
-/

namespace GrammarForge

/-- An automaton being reduced. -/
structure Reduction where
  automaton : Automaton
  /-- The merged state of each set of states with equal moves met so far. -/
  merged : OrderedMap (List Nat) Nat := {}

namespace Reduction

/-- Whether two states have moves, and the same ones. -/
def areTwins (a : Automaton) (i j : Nat) : Bool :=
  (a.state i).hasMoves && (a.state i).moves = (a.state j).moves

/-- Adds the state that stands for `members`, which all move on the same characters: where
one of them would go on, its new next state goes on too. -/
def addTwinState (a : Automaton) (members : List Nat) : Nat × Automaton :=
  let states := members.map a.state
  let base := (states.head?.getD {}).withoutEpsilon
  let twin := { base with
    next := some (a.size + 1)
    kind := states.foldl (fun k s => leastKind k s.kind) base.kind
    isFinal := base.isFinal || states.any State.isFinal }
  let successor : State := { epsilon := sortedSet compare (states.filterMap State.next) }
  (a.size, (a.push twin).push successor)

/-- The state that stands for a set of states with equal moves. -/
def twinState (r : Reduction) (members : List Nat) : Nat × Reduction :=
  match r.merged.get? members with
  | some i => (i, r)
  | none =>
    let (i, a) := addTwinState r.automaton members
    (i, ⟨a, r.merged.insert members i⟩)

/-- Replaces states with equal moves by one, at the place of the first of them. The states in
`earlier` stood further left. -/
def mergeTwins (r : Reduction) (earlier : List Nat) : List Nat → List Nat × Reduction
  | [] => ([], r)
  | i :: rest =>
    if earlier.any (areTwins r.automaton · i) then r.mergeTwins (i :: earlier) rest
    else
      let twins := rest.filter (areTwins r.automaton i)
      let (j, r) := if twins.isEmpty then (i, r) else r.twinState (sortedSet compare (i :: twins))
      let (js, r) := r.mergeTwins (i :: earlier) rest
      (j :: js, r)

/-- Adds the state that moves on the characters of all of `i` and `others`, which have the
same next state. -/
def addJointState (r : Reduction) (i : Nat) (others : List Nat) :
    Except CompileError (Nat × Reduction) := do
  let j := r.automaton.size
  let a ← others.foldlM (·.mergeMoves j ·) (r.automaton.push (r.automaton.state i).withoutEpsilon)
  return (j, { r with automaton := a })

/-- Replaces states with the same next state by one. The first list has the states that are
alone with their next state, the second one the new states. -/
def mergeByNext (r : Reduction) (earlier : List Nat) :
    List Nat → Except CompileError ((List Nat × List Nat) × Reduction)
  | [] => .ok (([], []), r)
  | i :: rest =>
    let sameNext := fun j => (r.automaton.state j).next = (r.automaton.state i).next
    if earlier.any sameNext then r.mergeByNext (i :: earlier) rest
    else
      let others := rest.filter sameNext
      if others.isEmpty then do
        let ((kept, joint), r) ← r.mergeByNext (i :: earlier) rest
        return ((i :: kept, joint), r)
      else do
        let (j, r) ← r.addJointState i others
        let ((kept, joint), r) ← r.mergeByNext (i :: earlier) rest
        return ((kept, j :: joint), r)

/-- One round of both ways of merging. -/
def mergeOnce (r : Reduction) (members : List Nat) : Except CompileError (List Nat × Reduction) := do
  let (twins, r) := r.mergeTwins [] members
  let ((kept, joint), r) ← r.mergeByNext [] twins
  return (kept ++ joint, r)

/-- Merges until a round changes nothing; every other round leaves fewer states. -/
def mergeAll (r : Reduction) (members : List Nat) : Except CompileError (List Nat × Reduction) :=
  match r.mergeOnce members with
  | .error e => .error e
  | .ok (members', r') =>
    if members'.length < members.length then mergeAll r' members' else .ok (members', r')
termination_by members.length

/-- Reduces the closure of the state at place `i`. -/
def reduceState (r : Reduction) (i : Nat) : Except CompileError Reduction := do
  let members := (r.automaton.state i).epsilon
  let (members, r) ← mergeAll r members
  return { r with automaton := r.automaton.modify i fun s =>
      { s with epsilon := sortedSet compare members } }

end Reduction

namespace Automaton

/-- Reduces the closures of all states of a closed automaton, and closes the new states. -/
def reduce (a : Automaton) : Except CompileError Automaton := do
  let r ← (List.range a.size).foldlM Reduction.reduceState ⟨a, {}⟩
  return r.automaton.closeFrom a.size

/-- Closes an automaton, and reduces it if `reduced` is set. -/
def closures (a : Automaton) (reduced : Bool) : Except CompileError Automaton :=
  if reduced then a.close.reduce else .ok a.close

end Automaton

end GrammarForge
