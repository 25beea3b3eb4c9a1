import GrammarForge.Scanner.LongestMatch
import GrammarForge.Text.Position
import GrammarForge.Text.Quoted

set_option autoImplicit false

/-!
# The scanner

The scanner splits a text into tokens with scan tables. It repeatedly takes the longest match
at its place and treats it as the match's kind says, until a token is complete. At the end of
the text it delivers a token of kind zero once.

## Main definitions

* `ScanError` — why scanning stops.
* `Scanner` — the state of a scan.
* `Scanner.turn` — one match, or the end of the input.
* `Scanner.next` — the next token.
* `Scanner.tokenizeAll` — all tokens of a text.
-/

namespace GrammarForge

/-- The kind of the token at the end of the input. -/
def endKind : Nat := 0

/-- Why a text cannot be split into tokens. -/
inductive ScanError where
  /-- No token of the mode matches at this place. -/
  | noMatch (mode : Nat) (found : Char) (position : Position)
  /-- The empty text matches and the mode stays the same, so there is no progress. -/
  | emptyMatch (kind : Nat) (position : Position)
  /-- The text ends inside a token that began here. -/
  | unterminated (start : Position)
  /-- There is no such mode. -/
  | unknownMode (mode : Nat)
  /-- There is no such token kind. -/
  | unknownKind (kind : Nat)
deriving DecidableEq, Repr

/-- The wording of a scan error. -/
def ScanError.message : ScanError → String
  | noMatch mode found p =>
    "lexical error at " ++ p.describe ++ ": no token in mode " ++ toString mode ++ " matches " ++
      quoteChar found
  | emptyMatch kind p =>
    "lexical error at " ++ p.describe ++ ": token kind " ++ toString kind ++
      " matches the empty string"
  | unterminated p => "lexical error: input ended inside a token that started at " ++ p.describe
  | unknownMode mode => "scan tables have no lexical mode " ++ toString mode
  | unknownKind kind => "scan tables have no token kind " ++ toString kind

/-- A piece of text with its kind and its place. -/
structure Lexeme where
  kind : Nat
  image : String
  span : Span
deriving DecidableEq, Repr, Inhabited

/-- A token with the special lexemes that stand before it. -/
structure Token extends Lexeme where
  specials : List Lexeme
deriving DecidableEq, Repr, Inhabited

/-- Counters of a scan. -/
structure ScanStats where
  /-- Characters read by the automata, those read again included. -/
  chars : Nat := 0
  /-- Matches taken. -/
  matched : Nat := 0
  /-- Tokens delivered. -/
  tokens : Nat := 0
deriving DecidableEq, Repr, Inhabited

/-- The state of a scan. -/
structure Scanner where
  /-- The text that is still to be read. -/
  rest : List Char
  position : Position := Position.start
  mode : Nat
  /-- The beginning of the next lexeme, kept from earlier matches. -/
  buffer : List Char := []
  /-- Where the kept beginning started. -/
  bufferStart : Option Position := none
  /-- Special lexemes waiting for the next token. -/
  specials : List Lexeme := []
  /-- Whether the end of the input has been reported. -/
  ended : Bool := false
  stats : ScanStats := {}
deriving DecidableEq, Repr, Inhabited

namespace Scanner

/-- A scanner at the beginning of a text. -/
def start (t : ScanTables) (text : String) : Scanner :=
  { rest := text.toList, mode := t.startMode }

/-- What a call for the next token gives. -/
inductive Outcome where
  | token (t : Token)
  /-- The end of the input has been reported before. -/
  | finished
  | failed (e : ScanError)
deriving DecidableEq, Repr

/-- What one match leads to. -/
inductive Turn where
  /-- The call is over. -/
  | done (o : Outcome) (s : Scanner)
  /-- Another match is needed. -/
  | again (s : Scanner)

/-- Reports the end of the input. -/
def atEnd (t : ScanTables) (s : Scanner) : Turn :=
  match s.bufferStart with
  | some p => .done (.failed (.unterminated p)) s
  | none =>
    let s := { s with ended := true }
    match t.modes[s.mode]? with
    | none => .done (.failed (.unknownMode s.mode)) s
    | some m =>
      let token : Token := ⟨⟨endKind, "", ⟨s.position, s.position⟩⟩, s.specials⟩
      .done (.token token)
        { s with
          mode := m.eofNextMode.getD s.mode
          specials := []
          stats := { s.stats with tokens := s.stats.tokens + 1 } }

/-- Moves past `length` characters, which become part of the next lexeme. -/
def consume (s : Scanner) (length : Nat) : Scanner :=
  let text := s.rest.take length
  { s with
    rest := s.rest.drop length
    position := s.position.advanceAll text
    buffer := s.buffer ++ text
    stats := { s.stats with matched := s.stats.matched + 1 } }

/-- Treats a match of `kind`, which began at `start`, as `info` says; the scanner `s` has
moved past it. -/
def treat (info : KindInfo) (kind : Nat) (start : Position) (s : Scanner) : Turn :=
  let first := s.bufferStart.getD start
  let lexeme : Lexeme := ⟨kind, String.ofList s.buffer, ⟨first, s.position⟩⟩
  let s := { s with bufferStart := none, mode := info.nextMode.getD s.mode }
  match info.action with
  | .more => .again { s with bufferStart := some first }
  | .skip => .again { s with buffer := [] }
  | .special => .again { s with buffer := [], specials := s.specials ++ [lexeme] }
  | .token =>
    .done (.token ⟨lexeme, s.specials⟩)
      { s with
        buffer := []
        specials := []
        stats := { s.stats with tokens := s.stats.tokens + 1 } }

/-- Takes the longest match at the scanner's place, where the text goes on with `c`. -/
def atText (t : ScanTables) (s : Scanner) (c : Char) : Turn :=
  match t.modes[s.mode]? with
  | none => .done (.failed (.unknownMode s.mode)) s
  | some m =>
    let (found, read) := m.longestMatch s.rest
    let s := { s with stats := { s.stats with chars := s.stats.chars + read } }
    match found with
    | none => .done (.failed (.noMatch s.mode c s.position)) s
    | some ⟨kind, length⟩ =>
      match t.kinds[kind]? with
      | none => .done (.failed (.unknownKind kind)) s
      | some info =>
        if length = 0 && info.nextMode.getD s.mode = s.mode then
          .done (.failed (.emptyMatch kind s.position)) s
        else treat info kind s.position (s.consume length)

/-- One step of the scan. -/
def turn (t : ScanTables) (s : Scanner) : Turn :=
  if s.ended then .done .finished s
  else
    match s.rest with
    | [] => s.atEnd t
    | c :: _ => s.atText t c

/-- Takes up to `turns` steps until the call is over. -/
def nextWithin (t : ScanTables) : Nat → Scanner → Option (Outcome × Scanner)
  | 0, _ => none
  | turns + 1, s =>
    match s.turn t with
    | .done o s => some (o, s)
    | .again s => nextWithin t turns s

/-- Enough steps for a call that ends: what a step does depends on the rest of the text and the
mode alone, and when these repeat the scan goes round empty matches for ever. -/
def turnBound (t : ScanTables) (s : Scanner) : Nat :=
  s.rest.length * t.modes.size + 1

/-- The next token. The result is `none` if the scan never gets there. -/
def next (t : ScanTables) (s : Scanner) : Option (Outcome × Scanner) :=
  s.nextWithin t (s.turnBound t)

/-- Collects up to `count` tokens. -/
def tokensWithin (t : ScanTables) : Nat → Scanner → Option (Except ScanError (List Token))
  | 0, _ => none
  | count + 1, s =>
    match s.next t with
    | none => none
    | some (.finished, _) => some (.ok [])
    | some (.failed e, _) => some (.error e)
    | some (.token token, s) =>
      (tokensWithin t count s).map fun r => r.map (token :: ·)

/-- All tokens up to the end of the input, or the first error. The result is `none` if the scan
goes on for ever. -/
def tokenizeAll (t : ScanTables) (text : String) : Option (Except ScanError (List Token)) :=
  let s := Scanner.start t text
  s.tokensWithin t (s.turnBound t + 2)

end Scanner

end GrammarForge
