import GrammarForge.Compilation

set_option autoImplicit false

/-!
# Reports

Compiled grammars as text, one record per line. A record begins with a short tag, followed by
fields with commas between them, so that reports can be compared line by line.

## Main definitions

* `Report.lexer` — the automata of all lexical states.
* `Report.firstSets` — the token sequences that can begin each alternative.
* `Report.conflicts` — the conflicts.
* `Report.plan` — decisions and scan routines.
-/

namespace GrammarForge

namespace Report

/-- A line of text. -/
def line (s : String) : String := s ++ "\n"

/-- A record: its fields, separated by commas. -/
def record (fields : List String) : String := line (",".intercalate fields)

/-- Text between braces. -/
def braced (s : String) : String := "\x7b" ++ s ++ "\x7d"

/-- A number of tokens. -/
def amountImage (n : Nat) : String := if n = unbounded then "inf" else toString n

/-- A number that may be missing. -/
def optionImage (n : Option Nat) : String := (n.map toString).getD "-"

/-- A character. -/
def charImage (c : Char) : String := escape (String.singleton c)

/-- An inclusive range of characters. -/
def rangeImage (lo hi : Char) : String := charImage lo ++ "-" ++ charImage hi

/-- A run of ASCII codes. -/
def runImage (run : Nat × Nat) : String :=
  if run.1 = run.2 then charImage (Char.ofNat run.1)
  else rangeImage (Char.ofNat run.1) (Char.ofNat run.2)

/-- The characters of a move table. -/
def movesImage (t : MoveTable) : String :=
  " ".intercalate (t.asciiRuns.map runImage ++ t.chars.map charImage ++
    t.ranges.map fun r => rangeImage r.1 r.2)

/-- A set of numbers; each of them is followed by a comma. -/
def setImage (ns : List Nat) : String :=
  braced (String.join (ns.map fun n => toString n ++ ", "))

/-- The label of a kind, or its number. -/
def kindImage (kinds : Array KindInfo) (k : Option Nat) : String :=
  match k.bind fun k => kinds[k]? with
  | some info => info.label
  | none => optionImage k

/-- The automaton of a lexical state: a header, the states, the next sets, the composites. -/
def lexicalState (kinds : Array KindInfo) (s : LexicalState) : String :=
  let m := s.scanMode
  let header := record ["L", m.name, toString m.states.size, optionImage m.initial,
    kindImage kinds m.emptyMatch]
  let states := m.states.toList.zipIdx.map fun (t, i) =>
    record ["S", toString i, kindImage kinds t.kind, optionImage t.nextSet,
      braced (movesImage t.moves)]
  let sets := m.nextSets.toList.zipIdx.map fun (ns, i) => record ["N", toString i, setImage ns]
  let composites := m.composites.toList.zipIdx.map fun (ns, k) =>
    record ["C", toString (s.numbering.compositeId k), setImage ns]
  header ++ String.join (states ++ sets ++ composites)

/-- The automata of all lexical states. -/
def lexer (l : Lexer) : String :=
  record ["LS", toString l.states.size] ++ line "" ++
    String.join (l.states.toList.map fun s => lexicalState l.kinds s ++ line "")

/-- Whether a node is a choice, and of what. -/
def alternatives? (g : Grammar) (id : NodeId) : Option (List NodeId) :=
  match g.kind id with
  | .choice alternatives => some alternatives
  | _ => none

/-- The alternatives of all choices: production, choice, index and the alternative itself. -/
def choiceAlternatives (g : Grammar) : List (String × NodeId × Nat × NodeId) :=
  g.productions.toList.flatMap fun p =>
    match p.expansion with
    | none => []
    | some root =>
      (g.walk root false).flatMap fun id =>
        (((alternatives? g id).getD []).zipIdx).map fun (a, i) => (p.name, id, i, a)

/-- The records of several alternatives. -/
def firstSetsFrom (g : Grammar) (limit : Nat) (e : Engine) :
    List (String × NodeId × Nat × NodeId) → String
  | [] => ""
  | (name, choice, i, alternative) :: rest =>
    let (seqs, e) := e.firstSequences g alternative limit
    let images := String.join (seqs.map fun s => g.tokensImage s ++ "; ")
    record ["F", name, toString choice, toString i, braced images] ++ firstSetsFrom g limit e rest

/-- The token sequences, cut at `limit` tokens, that can begin each alternative. -/
def firstSets (g : Grammar) (limit : Nat) : String :=
  firstSetsFrom g limit (Engine.new g) (choiceAlternatives g)

/-- The construct in which a conflict was found. -/
def constructImage (g : Grammar) (c : Conflict) : String :=
  match c.other with
  | some other => "choice " ++ toString c.node ++ "/" ++ toString other
  | none => (g.kind c.node).constructImage

/-- The conflicts. -/
def conflicts (g : Grammar) (cs : List Conflict) : String :=
  record ["XS", toString cs.length] ++ line "" ++
    String.join (cs.map fun c =>
      record ["X", (g.node c.node).position.describe, constructImage g c, toString c.required,
        if c.withinBound then "resolved" else "unresolved", g.tokensImage c.common])

/-- A decision. -/
def decisionImage (g : Grammar) : Decision → String
  | .always => "always"
  | .unreachable => "unreachable"
  | .semantic condition => "semantic " ++ braced condition
  | .switch kinds => "switch [" ++ g.tokensImage kinds ++ "]"
  | .scan routine amount condition =>
    "scan " ++ routine.text ++ " " ++ amountImage amount ++
      ((condition.map fun c => " && " ++ braced c).getD "")

/-- The kind of a decision point. -/
def decisionKindImage : DecisionKind → String
  | .choice => "choice"
  | .oneOrMore => "(...)+"
  | .zeroOrMore => "(...)*"
  | .zeroOrOne => "[...]"

/-- A decision point: a header and its branches. -/
def decisionPoint (g : Grammar) (d : DecisionPoint) : String :=
  record ["D", toString d.node, decisionKindImage d.kind] ++
    String.join (d.branches.zipIdx.map fun (b, i) =>
      record ["B", toString i, decisionImage g b.decision])

/-- Decisions, entry routines and scan routines. -/
def plan (g : Grammar) (p : Plan) : String :=
  let entries := p.entries.toList.map fun e =>
    record ["J", e.name.text, toString e.expansion, amountImage e.amount]
  let routines := p.routines.map fun r =>
    record ["R", r.name.text, toString r.expansion, amountImage r.budget,
      amountImage r.minimumSize, toString r.checksSemantic]
  record ["DS", toString p.decisions.length] ++ line "" ++
    String.join (p.decisions.map (decisionPoint g)) ++ line "" ++
    String.join (entries ++ routines)

end Report

end GrammarForge
