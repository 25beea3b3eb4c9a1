set_option autoImplicit false

/-!
# Escaped literals

Token literals appear in messages and dumps between double quotes. Control characters with
a letter of their own, quotes and the backslash are written with a backslash; every other
character outside the printable ASCII range is written by its code in hexadecimal.

## Main definitions

* `escapeChar` — the written form of one character.
* `escape` — the written form of a text.
-/

namespace GrammarForge

/-- Lower-case hexadecimal digits of `n`, at least `width` of them. -/
def hexDigits (width n : Nat) : List Char :=
  let digits := Nat.toDigits 16 n
  List.replicate (width - digits.length) '0' ++ digits

/-- The written form of one character. -/
def escapeChar (c : Char) : List Char :=
  if c = '\x08' then ['\\', 'b']
  else if c = '\t' then ['\\', 't']
  else if c = '\n' then ['\\', 'n']
  else if c = '\x0c' then ['\\', 'f']
  else if c = '\r' then ['\\', 'r']
  else if c = '"' then ['\\', '"']
  else if c = '\'' then ['\\', '\'']
  else if c = '\\' then ['\\', '\\']
  else if c.toNat < 0x20 || 0x7e < c.toNat then '\\' :: 'u' :: hexDigits 4 c.toNat
  else [c]

/-- The written form of a text, character by character. -/
def escape (s : String) : String :=
  String.ofList (s.toList.flatMap escapeChar)

end GrammarForge
