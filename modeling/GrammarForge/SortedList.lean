import Std.Data.TreeSet

set_option autoImplicit false

/-!
# Ascending lists without repetition

Finite sets of states, characters and token sequences are kept as strictly ascending lists,
so that equal sets are equal lists.

## Main definitions

* `insertSorted` — adds an element to an ascending list.
* `sortedSet` — the ascending list of the elements of any list.
* `intern` — the place of an element in a list of distinct elements, added if new.

## Main results

* `mem_insertSorted`, `mem_sortedSet` — which elements these lists have.
* `pairwise_sortedSet` — the sorted list is strictly ascending.
-/

namespace GrammarForge

variable {α : Type}

/-- Inserts `a` at its place in an ascending list, unless an equal element is there. -/
def insertSorted (cmp : α → α → Ordering) (a : α) : List α → List α
  | [] => [a]
  | b :: bs =>
    match cmp a b with
    | .lt => a :: b :: bs
    | .eq => b :: bs
    | .gt => b :: insertSorted cmp a bs

/-- The ascending list of the elements of `as`. -/
def sortedSet (cmp : α → α → Ordering) (as : List α) : List α :=
  (Std.TreeSet.ofList as cmp).toList

/-- The place of `a` among distinct elements; a new element goes to the end. -/
def intern [DecidableEq α] (xs : Array α) (a : α) : Nat × Array α :=
  match xs.findIdx? (· = a) with
  | some i => (i, xs)
  | none => (xs.size, xs.push a)

/-- Pairs are ordered by their first components, then by their second ones. -/
def comparePairs [Ord α] (p q : α × α) : Ordering :=
  (compare p.1 q.1).then (compare p.2 q.2)

variable (cmp : α → α → Ordering)

/-- Inserting adds one element and loses none.

**Proof sketch.** Induction on the list, along the comparison with its first element: below it the new
element is put in front, at an equal one the list stays as it is, and above it the rest decides. -/
theorem mem_insertSorted [Std.LawfulEqCmp cmp] {a x : α} {bs : List α} :
    x ∈ insertSorted cmp a bs ↔ x = a ∨ x ∈ bs := by
  induction bs with
  | nil => simp [insertSorted]
  | cons b bs ih =>
    unfold insertSorted
    cases h : cmp a b with
    | lt => simp
    | eq =>
      have hab : a = b := Std.LawfulEqCmp.compare_eq_iff_eq.mp h
      subst hab
      simp
    | gt => simp [ih]; grind

/-- The sorted list has exactly the elements of the given one. -/
theorem mem_sortedSet [DecidableEq α] [Std.TransCmp cmp] [Std.LawfulEqCmp cmp] {x : α}
    {as : List α} :
    x ∈ sortedSet cmp as ↔ x ∈ as := by
  rw [sortedSet, Std.TreeSet.mem_toList, Std.TreeSet.mem_ofList, List.contains_iff_mem]

/-- The sorted list is strictly ascending. -/
theorem pairwise_sortedSet [Std.TransCmp cmp] {as : List α} :
    (sortedSet cmp as).Pairwise fun a b => cmp a b = .lt :=
  Std.TreeSet.ordered_toList

end GrammarForge
