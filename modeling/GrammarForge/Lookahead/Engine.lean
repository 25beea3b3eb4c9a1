import GrammarForge.Countdown
import GrammarForge.Grammar.Tree
import GrammarForge.Lookahead.Sequence

set_option autoImplicit false

/-!
# FIRST and FOLLOW

The token sequences, cut at a limit, that can begin an expansion or follow it. Both are walks
that extend partial matches token by token: FIRST walks down the tree of an expansion, FOLLOW
walks up to the parents and through what comes after it. A match that reaches the limit is set
aside and extended no further; the walks return the matches that are still short.

FIRST notes which productions it is expanding with which matches, so that left recursion adds
nothing. FOLLOW stamps the nodes it passes and notes which matches it is following from which
nodes. A match that passes a node unchanged keeps its stamp, a match that grew gets a fresh one.

## Main definitions

* `PartialMatch` — a match under way.
* `Engine` — the limit, the matches set aside, and the notes of the walks.
* `Engine.firstWithin`, `Engine.followWithin` — the walks, down to a depth.
* `Engine.firstSet`, `Engine.followSet` — the walks.
* `Engine.firstSequences`, `Engine.followSequences` — all sequences up to a length.
-/

namespace GrammarForge

/-- A token sequence that is being extended. -/
structure PartialMatch where
  tokens : TokenSeq := []
  /-- Whether a token was added since FOLLOW last went up to a parent. -/
  grown : Bool := false
deriving DecidableEq, Repr, Inhabited

/-- A match with one more token. -/
def PartialMatch.extend (m : PartialMatch) (kind : Nat) : PartialMatch :=
  ⟨m.tokens ++ [kind], true⟩

/-- The memory of the walks over a grammar. -/
structure Engine where
  /-- The number of tokens at which matches are cut. -/
  limit : Nat := 1
  /-- Whether a condition checked at run time stops FIRST. -/
  considerSemantic : Bool := false
  /-- Matches that have reached the limit. -/
  limited : Array TokenSeq := #[]
  /-- The last stamp put on each node. -/
  stamps : Array Nat
  nextStamp : Nat := 1
  /-- The productions being expanded, with the matches they were entered with. -/
  active : List (Nat × List TokenSeq) := []
  /-- The matches being followed, with the nodes they are followed from. -/
  following : List (NodeId × TokenSeq) := []
deriving DecidableEq, Repr, Inhabited

/-- A part of a walk. The result is `none` if it would go too deep. -/
abbrev Walk (α : Type) := StateT Engine Option α

namespace Engine

/-- An engine for a grammar. -/
def new (g : Grammar) : Engine := { stamps := Array.replicate g.nodes.size 0 }

/-- Sets the limit; it is at least one token. -/
def setLimit (e : Engine) (limit : Nat) : Engine := { e with limit := max limit 1 }

/-- The list of one empty match. -/
def start : List PartialMatch := [{}]

/-- A walk that has gone too deep. -/
def tooDeep {α : Type} : Walk α := fun _ => none

/-- Sets matches aside. -/
def setAside (ms : List TokenSeq) : Walk Unit := fun e =>
  some ((), { e with limited := e.limited ++ ms.toArray })

/-- Adds a token to all matches; those that reach the limit are set aside. -/
def extendAll (kind : Nat) (ms : List PartialMatch) : Walk (List PartialMatch) := fun e =>
  let limit := e.limit
  let longer := ms.map (·.extend kind)
  let (short, long) := longer.partition fun m => m.tokens.length < limit
  some (short, { e with limited := e.limited ++ (long.map PartialMatch.tokens).toArray })

/-- Collects what a walk gives for several nodes. -/
def forEach (visit : NodeId → Walk (List PartialMatch)) :
    List NodeId → Walk (List PartialMatch)
  | [] => return []
  | id :: ids => do
    let ms ← visit id
    let rest ← forEach visit ids
    return ms ++ rest

/-- Sends matches through several nodes in a row, until none is left. -/
def through (visit : List PartialMatch → NodeId → Walk (List PartialMatch)) :
    List PartialMatch → List NodeId → Walk (List PartialMatch)
  | ms, [] => return ms
  | ms, id :: ids => do
    let ms ← visit ms id
    if ms.isEmpty then return [] else through visit ms ids

/-- Sends matches through a body again and again, and collects what comes out each time. -/
def repeated (visit : List PartialMatch → Walk (List PartialMatch)) :
    Nat → List PartialMatch → Walk (List PartialMatch)
  | 0, _ => return []
  | passes + 1, ms => do
    let ms ← visit ms
    if ms.isEmpty then return []
    else
      let later ← repeated visit passes ms
      return ms ++ later

/-- The number of passes through a body: each adds a token unless the body can match nothing. -/
def passes : Walk Nat := do
  let e ← get
  return e.limit + 1

/-- Expands a production, unless it is being expanded with the same matches already. -/
def expanding (p : Nat) (ms : List PartialMatch) (w : Walk (List PartialMatch)) :
    Walk (List PartialMatch) := do
  let key := (p, sortedSet compare (ms.map PartialMatch.tokens))
  let e ← get
  if e.active.contains key then return []
  else
    set { e with active := key :: e.active }
    let out ← w
    modify fun e => { e with active := e.active.tail }
    return out

/-- FIRST: sends matches through an expansion, down to a depth. -/
def firstWithin (g : Grammar) :
    Countdown → List PartialMatch → NodeId → Walk (List PartialMatch)
  | .zero, _, _ => tooDeep
  | .succ depth, ms, id =>
    match g.kind id with
    | .token kind => extendAll kind ms
    | .nonterminal _ none => return []
    | .nonterminal _ (some p) =>
      match g.body p with
      | none => do
        setAside (ms.map PartialMatch.tokens)
        return []
      | some root => expanding p ms (firstWithin g (depth ()) ms root)
    | .choice alternatives => forEach (firstWithin g (depth ()) ms) alternatives
    | .sequence units => through (firstWithin g (depth ())) ms units
    | .oneOrMore b => do repeated (firstWithin g (depth ()) · b) (← passes) ms
    | .zeroOrMore b => do
      let more ← repeated (firstWithin g (depth ()) · b) (← passes) ms
      return ms ++ more
    | .zeroOrOne b => do
      let more ← firstWithin g (depth ()) ms b
      return ms ++ more
    | .lookahead spec => do
      let e ← get
      return if e.considerSemantic && spec.semantic.isSome then [] else ms
    | .action _ => return ms

/-- A depth that FIRST never exceeds. On the way down, the set of matches grows, or its
shortest match gets longer, or no token is read; each production is entered at most once with
each set, and between two productions there are at most as many nodes as the grammar has. The
matches that extend `count` given ones are at most `count` times as many as there are token
sequences up to the limit. -/
def firstDepth (g : Grammar) (limit count : Nat) : Countdown :=
  .geometric (g.nodes.size + 1) limit
    ((g.nodes.size + 1) * (g.productions.size + 1) * (limit + 1) * (count + 1))

/-- FIRST without a bound on the depth. -/
def first (g : Grammar) (ms : List PartialMatch) (id : NodeId) : Walk (List PartialMatch) :=
  fun e => firstWithin g (firstDepth g e.limit ms.length) ms id e

/-- A stamp that no node has. -/
def freshStamp : Walk Nat := do
  let e ← get
  set { e with nextStamp := e.nextStamp + 1 }
  return e.nextStamp

/-- Puts a stamp on a node; false if the node has it already. -/
def stamp (id : NodeId) (s : Nat) : Walk Bool := do
  let e ← get
  if e.stamps.getD id 0 = s then return false
  else
    set { e with stamps := e.stamps.setIfInBounds id s }
    return true

/-- The matches that are not being followed from `id` yet, without repetitions. -/
def unfollowed (id : NodeId) (following : List (NodeId × TokenSeq)) :
    List PartialMatch → List PartialMatch
  | [] => []
  | m :: ms =>
    if following.contains (id, m.tokens) then unfollowed id following ms
    else m :: unfollowed id ((id, m.tokens) :: following) ms

/-- Notes that matches are being followed from `id` for the time of a walk. -/
def whileFollowing (id : NodeId) (ms : List PartialMatch) (w : Walk (List PartialMatch)) :
    Walk (List PartialMatch) := do
  modify fun e => { e with following := ms.map (fun m => (id, m.tokens)) ++ e.following }
  let out ← w
  modify fun e => { e with following := e.following.drop ms.length }
  return out

/-- Goes up to the parent with the matches that passed unchanged under the same stamp, and with
those that grew under a fresh one. -/
def splitFollow (up : List PartialMatch → Nat → Walk (List PartialMatch)) (s : Nat)
    (ms : List PartialMatch) : Walk (List PartialMatch) := do
  let same := ms.filter fun m => !m.grown
  let grown := ms.filter PartialMatch.grown
  let sameOut ← if same.isEmpty then pure [] else up same s
  let grownOut ← if grown.isEmpty then pure [] else do up grown (← freshStamp)
  return grownOut ++ sameOut

/-- FOLLOW: sends matches through what comes after an expansion, up to a height. -/
def followWithin (g : Grammar) :
    Countdown → List PartialMatch → NodeId → Nat → Walk (List PartialMatch)
  | .zero, _, _, _ => tooDeep
  | .succ height, ms, id, s => do
    if !(← stamp id s) then return []
    else if (g.node id).parent = .none then return ms
    else
      let fresh := (unfollowed id (← get).following ms).map fun m => { m with grown := false }
      if fresh.isEmpty then return []
      else
        whileFollowing id fresh <|
          match (g.node id).parent with
          | .none => return fresh
          | .production p =>
            forEach (fun r => followWithin g (height ()) fresh r s) (g.production p).references
          | .node parent =>
            match g.kind parent with
            | .sequence units => do
              let after ← through (first g) fresh (units.drop ((g.node id).index + 1))
              splitFollow (fun ms s => followWithin g (height ()) ms parent s) s after
            | .oneOrMore _ | .zeroOrMore _ => do
              let more ← repeated (first g · id) (← passes) fresh
              splitFollow (fun ms s => followWithin g (height ()) ms parent s) s (fresh ++ more)
            | _ => followWithin g (height ()) fresh parent s

/-- A height that FOLLOW never exceeds: on every level one more match is followed from one more
node. -/
def followHeight (g : Grammar) (limit count : Nat) : Countdown :=
  .geometric (g.nodes.size + 1) limit (g.nodes.size * count + 2)

/-- FOLLOW without a bound on the height, under a fresh stamp. -/
def follow (g : Grammar) (ms : List PartialMatch) (id : NodeId) : Walk (List PartialMatch) := do
  let s ← freshStamp
  let e ← get
  followWithin g (followHeight g e.limit ms.length) ms id s

/-- The short matches that come out of FIRST. -/
def firstSet (e : Engine) (g : Grammar) (ms : List PartialMatch) (id : NodeId) :
    List PartialMatch × Engine :=
  (first g ms id e).getD ([], e)

/-- The short matches that come out of FOLLOW. -/
def followSet (e : Engine) (g : Grammar) (ms : List PartialMatch) (id : NodeId) :
    List PartialMatch × Engine :=
  (follow g ms id e).getD ([], e)

/-- The matches set aside, which are forgotten. -/
def takeLimited (e : Engine) : List TokenSeq × Engine :=
  (e.limited.toList, { e with limited := #[] })

/-- The sequences of the short matches and of those set aside, ascending. -/
def collect (r : List PartialMatch × Engine) : List TokenSeq × Engine :=
  let (limited, e) := r.2.takeLimited
  (sortedSet compare (r.1.map PartialMatch.tokens ++ limited), e)

/-- All token sequences that can begin an expansion, cut at `limit` tokens. -/
def firstSequences (e : Engine) (g : Grammar) (id : NodeId) (limit : Nat) :
    List TokenSeq × Engine :=
  collect (((e.setLimit limit).takeLimited.2).firstSet g start id)

/-- All token sequences that can follow an expansion, cut at `limit` tokens. -/
def followSequences (e : Engine) (g : Grammar) (id : NodeId) (limit : Nat) :
    List TokenSeq × Engine :=
  collect (((e.setLimit limit).takeLimited.2).followSet g start id)

end Engine

end GrammarForge
