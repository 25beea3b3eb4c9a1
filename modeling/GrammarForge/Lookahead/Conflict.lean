import GrammarForge.Lookahead.Engine
import GrammarForge.Options

set_option autoImplicit false

/-!
# Conflicts at choice points

At a choice point the parser looks at the next tokens to tell the branches apart. Two branches
are in conflict when they can begin with the same tokens; the check deepens the lookahead until
they differ or the configured bound is reached, and advises on the lookahead to use.

## Main definitions

* `Conflict` — what a check has found.
* `Checker` — the engine and the diagnostics of a check.
* `Checker.checkChoice` — the alternatives of a choice against each other.
* `Checker.checkRepetition` — the body of a repetition or option against what follows.
* `Checker.checkAll` — all choice points of a grammar.
-/

namespace GrammarForge

/-- Two branches that can begin alike. -/
structure Conflict where
  /-- The earlier alternative, or the repetition or option. -/
  node : NodeId
  /-- The later alternative; a repetition is in conflict with what follows it. -/
  other : Option NodeId
  /-- Tokens that both branches can begin with. -/
  common : TokenSeq
  /-- The lookahead that would tell the branches apart. -/
  required : Nat
  /-- Whether that lookahead is within the bound of the check. -/
  withinBound : Bool
deriving DecidableEq, Repr, Inhabited

/-- The two sides of a conflict as far as they have been compared. -/
structure Agreement where
  /-- The index of the later alternative. -/
  other : Nat
  common : TokenSeq
  /-- One more token than have been compared. -/
  required : Nat
deriving DecidableEq, Repr, Inhabited

/-- A check of choice points. -/
structure Checker where
  engine : Engine
  diagnostics : Diagnostics
deriving DecidableEq, Repr, Inhabited

namespace Conflict

/-- The advice about a lookahead of `n` tokens. -/
def advice (n : Nat) (withinBound : Bool) (which : String) : String :=
  "Consider using a lookahead of " ++ toString n ++ (if withinBound then "" else " or more") ++
    " for " ++ which ++ " expansion."

/-- The warning about a choice with an alternative that matches nothing. -/
def emptyAlternative : String :=
  "This choice can expand to the empty token sequence and will therefore always be taken in " ++
    "favor of the choices after it."

/-- The warning about a choice with an alternative that begins with a code production. -/
def codeAlternative : String :=
  "JAVACODE non-terminal will force this choice to be taken in favor of the choices after it."

/-- The warning about a repetition whose body begins with a code production. -/
def codeBody (construct : String) : String :=
  "JAVACODE non-terminal within " ++ construct ++ " construct will force this construct to be " ++
    "entered in favor of expansions occurring after construct."

/-- The warning about two alternatives. -/
def choiceMessage (g : Grammar) (here there : Position) (c : Conflict) : String :=
  "Choice conflict involving two expansions at " ++ here.describe ++ " and " ++ there.describe ++
    ".\n         A common prefix is: " ++ g.tokensImage c.common ++ "\n         " ++
    advice c.required c.withinBound "earlier"

/-- The warning about a repetition or option. -/
def repetitionMessage (g : Grammar) (c : Conflict) : String :=
  "Choice conflict in " ++ (g.kind c.node).constructImage ++ " construct at " ++
    (g.node c.node).position.describe ++
    ".\n         Expansion nested within construct and expansion following construct\n" ++
    "         have common prefixes, one of which is: " ++ g.tokensImage c.common ++
    "\n         " ++ advice c.required c.withinBound "nested"

end Conflict

/-- Whether an alternative or a body begins with a lookahead that is written in the grammar. -/
def Grammar.hasExplicitLookahead (g : Grammar) (id : NodeId) : Bool :=
  ((g.leadingLookahead? id).map fun la => la.2.explicit).getD false

namespace Checker

/-- A check of a grammar. -/
def new (g : Grammar) (ds : Diagnostics) : Checker := ⟨Engine.new g, ds⟩

/-- Reports a warning. -/
def warn (c : Checker) (p : Position) (message : String) : Checker :=
  { c with diagnostics := c.diagnostics.warning p message }

/-- The sequences of as many tokens as the limit says that can begin an expansion. -/
def firstOf (g : Grammar) (semantic : Bool) (e : Engine) (id : NodeId) :
    List TokenSeq × Engine :=
  let e := { e with considerSemantic := semantic }.takeLimited.2
  (e.firstSet g Engine.start id).2.takeLimited

/-- The sequences that can begin each of several expansions. -/
def firstOfEach (g : Grammar) (semantic : Bool) (e : Engine) :
    List NodeId → List (List TokenSeq) × Engine
  | [] => ([], e)
  | id :: ids =>
    let (s, e) := firstOf g semantic e id
    let (ss, e) := firstOfEach g semantic e ids
    (s :: ss, e)

/-- The first of the later alternatives that the sequences `left` agree with. -/
def firstAgreement? (left : List TokenSeq) (depth : Nat) :
    List (Nat × List TokenSeq) → Option Agreement
  | [] => none
  | (j, right) :: rest =>
    match overlap? left right with
    | some common => some ⟨j, common, depth + 1⟩
    | none => firstAgreement? left depth rest

/-- Compares each alternative with those after it. The numbers are indices. -/
def agreements (depth : Nat) (left right : List (Nat × List TokenSeq)) :
    List (Nat × Option Agreement) :=
  left.map fun (i, seqs) => (i, firstAgreement? seqs depth (right.filter fun r => i < r.1))

/-- What is wrong with an alternative that would always be taken. -/
def forcedAlternative? (g : Grammar) (id : NodeId) (seqs : List TokenSeq) : Option String :=
  if g.isNullable id then some Conflict.emptyAlternative
  else if seqs.any List.isEmpty then some Conflict.codeAlternative
  else none

/-- The first alternative that would always be taken. -/
def findForced? (g : Grammar) : List (NodeId × List TokenSeq) → Option (NodeId × String)
  | [] => none
  | (id, seqs) :: rest =>
    match forcedAlternative? g id seqs with
    | some message => some (id, message)
    | none => findForced? g rest

/-- Keeps the latest agreement that was found for each alternative. -/
def updateAgreements (old : List (Nat × Agreement)) (new : List (Nat × Option Agreement)) :
    List (Nat × Agreement) :=
  new.filterMap fun (i, a) => ((a.or (old.lookup i))).map fun a => (i, a)

/-- How deep alternatives agree, or a reason to give up. -/
abbrev Depths := Except (NodeId × String) (List (Nat × Agreement))

/-- Compares the alternatives `alternatives` of a choice at lookahead `depth` and, while some
agree, deeper, for at most `rounds` rounds. -/
def deepen (g : Grammar) (force : Bool) (alternatives : List (Nat × NodeId)) :
    Nat → Nat → List (Nat × Agreement) → Engine → Depths × Engine
  | 0, _, found, e => (.ok found, e)
  | rounds + 1, depth, found, e =>
    let indices := alternatives.map Prod.fst
    let earlier := alternatives.dropLast.map Prod.snd
    let (left, e) := firstOfEach g (!force) (e.setLimit depth) earlier
    let (right, e) := firstOfEach g false e (alternatives.tail.map Prod.snd)
    match if depth = 1 then findForced? g (earlier.zip left) else none with
    | some forced => (.error forced, e)
    | none =>
      let found' := agreements depth (indices.zip left) (indices.tail.zip right)
      if found'.all fun a => a.2.isNone then (.ok found, e)
      else deepen g force alternatives rounds (depth + 1) (updateAgreements found found') e

/-- The alternatives that are checked, with their indices: those before the first one without
an explicit lookahead are not, unless the check is forced. -/
def checkedAlternatives (g : Grammar) (force : Bool) (alternatives : List NodeId) :
    List (Nat × NodeId) :=
  let indexed := alternatives.zipIdx.map fun (id, i) => (i, id)
  if force then indexed else indexed.dropWhile fun a => g.hasExplicitLookahead a.2

/-- The conflict of one alternative. -/
def choiceConflict (alternatives : List NodeId) (bound : Nat) (id : NodeId) (a : Agreement) :
    Conflict :=
  { node := id
    other := some (alternatives.getD a.other 0)
    common := a.common
    required := a.required
    withinBound := a.required ≤ bound }

/-- Reports the conflict of one alternative. -/
def warnChoice (g : Grammar) (c : Checker) (conflict : Conflict) : Checker :=
  let here := (g.node conflict.node).position
  let there := (g.node (conflict.other.getD 0)).position
  c.warn here (conflict.choiceMessage g here there)

/-- Checks the alternatives of a choice. -/
def checkChoice (g : Grammar) (o : Options) (c : Checker) (choice : NodeId) :
    List Conflict × Checker :=
  match g.kind choice with
  | .choice alternatives =>
    let force := o.forceLookaheadCheck
    let bound := o.choiceAmbiguityCheck
    let checked := checkedAlternatives g force alternatives
    if alternatives.length < 2 then ([], c)
    else
      match deepen g force checked bound 1 [] c.engine with
      | (.error (id, message), e) => ([], { c with engine := e }.warn (g.node id).position message)
      | (.ok found, e) =>
        let conflicts := checked.filterMap fun (i, id) =>
          if g.hasExplicitLookahead id && !force then none
          else (found.lookup i).map (choiceConflict alternatives bound id)
        (conflicts, conflicts.foldl (warnChoice g) { c with engine := e })
  | _ => ([], c)

/-- The sequences of as many tokens as the limit says that can follow an expansion. -/
def followOf (g : Grammar) (e : Engine) (id : NodeId) : List TokenSeq × Engine :=
  ({ e with considerSemantic := false }.followSet g Engine.start id).2.takeLimited

/-- Compares the body of a repetition with what follows at lookahead `depth` and, while they
agree, deeper, for at most `rounds` rounds. The result is the first depth at which they differ,
or the one after the bound, and the last agreement. -/
def deepenRepetition (g : Grammar) (force : Bool) (id body : NodeId) :
    Nat → Nat → Option TokenSeq → Checker → (Nat × Option TokenSeq) × Checker
  | 0, depth, last, c => ((depth, last), c)
  | rounds + 1, depth, last, c =>
    let (inside, e) := firstOf g (!force) (c.engine.setLimit depth) body
    let (after, e) := followOf g e id
    let c := { c with engine := e }
    let c :=
      if depth = 1 && inside.any List.isEmpty then
        c.warn (g.node body).position (Conflict.codeBody (g.kind id).constructImage)
      else c
    match overlap? inside after with
    | some common => deepenRepetition g force id body rounds (depth + 1) (some common) c
    | none => ((depth, last), c)

/-- Checks whether entering the body of a repetition or option can be confused with leaving
it. -/
def checkRepetition (g : Grammar) (o : Options) (c : Checker) (id body : NodeId) :
    Option Conflict × Checker :=
  let bound := o.otherAmbiguityCheck
  match deepenRepetition g o.forceLookaheadCheck id body bound 1 none c with
  | ((_, none), c) => (none, c)
  | ((depth, some common), c) =>
    let conflict : Conflict :=
      { node := id, other := none, common, required := depth, withinBound := depth ≤ bound }
    (some conflict, c.warn (g.node id).position (conflict.repetitionMessage g))

/-- Checks one node, if it is a choice point that is to be checked. -/
def checkNode (g : Grammar) (o : Options) (c : Checker) (id : NodeId) :
    List Conflict × Checker :=
  match g.kind id with
  | .choice _ =>
    if o.lookahead = 1 || o.forceLookaheadCheck then checkChoice g o c id else ([], c)
  | .oneOrMore body | .zeroOrMore body | .zeroOrOne body =>
    if o.forceLookaheadCheck || (!g.hasExplicitLookahead body && o.lookahead = 1) then
      let (conflict, c) := checkRepetition g o c id body
      (conflict.toList, c)
    else ([], c)
  | _ => ([], c)

/-- Checks several nodes in order. -/
def checkNodes (g : Grammar) (o : Options) (c : Checker) : List NodeId → List Conflict × Checker
  | [] => ([], c)
  | id :: ids =>
    let (cs, c) := checkNode g o c id
    let (cs', c) := checkNodes g o c ids
    (cs ++ cs', c)

/-- Checks all choice points of a grammar. -/
def checkAll (g : Grammar) (o : Options) (c : Checker) : List Conflict × Checker :=
  checkNodes g o c g.productionNodes

end Checker

end GrammarForge
