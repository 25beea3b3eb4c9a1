import GrammarForge.Text.Blank
import GrammarForge.Text.Quoted

set_option autoImplicit false

/-!
# Compiler options

The options of a grammar compilation and their setting by name from a text value. Names
are matched without regard to ASCII case.

## Main definitions

* `Options` — the six options with their default values.
* `Options.set` — sets one option from the texts of its name and value.
* `OptionError` — why a setting is refused.
-/

namespace GrammarForge

/-- The greatest machine word. As a number of tokens it stands for "without bound". -/
def unbounded : Nat := 0xFFFFFFFFFFFFFFFF

/-- What steers a compilation. -/
structure Options where
  /-- Match every token without regard to letter case. -/
  ignoreCase : Bool := false
  /-- Tokens examined at a choice point unless it says otherwise. -/
  lookahead : Nat := 1
  /-- Deepest lookahead tried when a choice is checked for conflicts. -/
  choiceAmbiguityCheck : Nat := 2
  /-- Deepest lookahead tried when a repetition or an option is checked for conflicts. -/
  otherAmbiguityCheck : Nat := 1
  /-- Check choice points even where a lookahead is given explicitly. -/
  forceLookaheadCheck : Bool := false
  /-- Merge equivalent automaton states after the closure. -/
  reduceStates : Bool := true
deriving DecidableEq, Repr, Inhabited

/-- The options that can be set by name. -/
inductive OptionName where
  | ignoreCase
  | lookahead
  | choiceAmbiguityCheck
  | otherAmbiguityCheck
  | forceLookaheadCheck
  | reduceStates
deriving DecidableEq, Repr

namespace OptionName

/-- The spelling of an option's name. -/
def text : OptionName → String
  | ignoreCase => "IGNORE_CASE"
  | lookahead => "LOOKAHEAD"
  | choiceAmbiguityCheck => "CHOICE_AMBIGUITY_CHECK"
  | otherAmbiguityCheck => "OTHER_AMBIGUITY_CHECK"
  | forceLookaheadCheck => "FORCE_LA_CHECK"
  | reduceStates => "REDUCE_STATES"

/-- All options. -/
def all : List OptionName :=
  [ignoreCase, lookahead, choiceAmbiguityCheck, otherAmbiguityCheck, forceLookaheadCheck,
   reduceStates]

/-- The option a text names; ASCII case does not matter. -/
def ofText? (s : String) : Option OptionName :=
  all.find? fun name => name.text = s.map Char.toUpper

/-- What the value of an option has to be, in words. -/
def expects : OptionName → String
  | ignoreCase | forceLookaheadCheck | reduceStates => "true or false"
  | lookahead | choiceAmbiguityCheck | otherAmbiguityCheck => "a non-negative integer"

end OptionName

/-- Why an option was not set. -/
inductive OptionError where
  /-- There is no option of this name. -/
  | unknown (name : String)
  /-- The value cannot be read. -/
  | badValue (name : OptionName) (value : String)
  /-- A lookahead of no tokens decides nothing. -/
  | zeroLookahead
deriving DecidableEq, Repr

/-- The wording of an option error. -/
def OptionError.message : OptionError → String
  | unknown name => "unknown option " ++ quoteText name
  | badValue name value =>
    "option " ++ name.text ++ " expects " ++ name.expects ++ ", got " ++ quoteText value
  | zeroLookahead => "option LOOKAHEAD must be at least 1"

/-- The number written by decimal digits. -/
def decimalValue (cs : List Char) : Nat :=
  cs.foldl (fun n c => 10 * n + (c.toNat - '0'.toNat)) 0

/-- Reads a machine word: one plus sign at most, then decimal digits, blanks around allowed. -/
def readWord? (s : String) : Option Nat :=
  let cs := trimBlanks s.toList
  let digits := if cs.head? = some '+' then cs.tail else cs
  if digits.isEmpty || !digits.all Char.isDigit then none
  else if unbounded < decimalValue digits then none
  else some (decimalValue digits)

/-- Reads a truth value; ASCII case does not matter. -/
def readBool? (s : String) : Option Bool :=
  let s := s.map Char.toLower
  if s = "true" then some true else if s = "false" then some false else none

namespace Options

/-- Reads `value` for the option `name`. -/
def readValue {α : Type} (read : String → Option α) (name : OptionName) (value : String) :
    Except OptionError α :=
  match read value with
  | some v => .ok v
  | none => .error (.badValue name value)

/-- Sets the option called `name` to what `value` says. -/
def set (o : Options) (name value : String) : Except OptionError Options :=
  match OptionName.ofText? name with
  | none => .error (.unknown name)
  | some .ignoreCase =>
    (readValue readBool? .ignoreCase value).map fun b => { o with ignoreCase := b }
  | some .lookahead =>
    match readValue readWord? .lookahead value with
    | .error e => .error e
    | .ok 0 => .error .zeroLookahead
    | .ok n => .ok { o with lookahead := n }
  | some .choiceAmbiguityCheck =>
    (readValue readWord? .choiceAmbiguityCheck value).map fun n =>
      { o with choiceAmbiguityCheck := n }
  | some .otherAmbiguityCheck =>
    (readValue readWord? .otherAmbiguityCheck value).map fun n =>
      { o with otherAmbiguityCheck := n }
  | some .forceLookaheadCheck =>
    (readValue readBool? .forceLookaheadCheck value).map fun b =>
      { o with forceLookaheadCheck := b }
  | some .reduceStates =>
    (readValue readBool? .reduceStates value).map fun b => { o with reduceStates := b }

end Options

end GrammarForge
