set_option autoImplicit false

/-!
# Name tables

Names numbered in the order in which they were first seen. Lexical states and productions
are numbered this way.

## Main definitions

* `NameTable.intern` — the number of a name, given out now if it is new.
* `NameTable.index?`, `NameTable.name?` — from names to numbers and back.
-/

namespace GrammarForge

/-- Distinct names; the place of a name is its number. -/
structure NameTable where
  names : Array String := #[]
deriving DecidableEq, Repr, Inhabited

namespace NameTable

/-- The number of a name. -/
def index? (t : NameTable) (name : String) : Option Nat :=
  t.names.findIdx? (· = name)

/-- The name with a number. -/
def name? (t : NameTable) (i : Nat) : Option String := t.names[i]?

/-- How many names there are. -/
def size (t : NameTable) : Nat := t.names.size

/-- The number of `name`, which is added if it is new. -/
def intern (t : NameTable) (name : String) : Nat × NameTable :=
  match t.index? name with
  | some i => (i, t)
  | none => (t.names.size, ⟨t.names.push name⟩)

/-- The numbers of several names, interned from left to right. -/
def internAll (t : NameTable) : List String → List Nat × NameTable
  | [] => ([], t)
  | name :: rest =>
    let (i, t) := t.intern name
    let (is, t) := t.internAll rest
    (i :: is, t)

end NameTable

end GrammarForge
