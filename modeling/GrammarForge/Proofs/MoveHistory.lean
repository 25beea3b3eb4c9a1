import GrammarForge.Proofs.Construction

set_option autoImplicit false

/-!
# The history of move tables

The states of an automaton get their moves by adding characters and ranges, by copying the moves of
another state and by merging them into a state that has some. Whatever the order of these edits is, a
table then holds exactly the characters that were added to its state, to the states merged into it, or
to the one it was copied from; and its lists are in order, so that a search by halving finds them.

## Main definitions

* `MoveEdit`, `Automaton.edit` — the edits.
* `MoveEdit.record` — what has been added to each state so far.
* `MoveTable.Holds` — a table in order that holds just the characters of some items.
* `KeepsRecord` — the invariant of edits: tables hold what has been recorded.

## Main results

* `KeepsRecord.edit`, `KeepsRecord.foldl` — one edit, and any sequence of them.
* `edited_moves` — the tables after any sequence of edits.
-/

namespace GrammarForge

open Automaton

/-! ## What a table holds -/

namespace MoveTable

/-- **A table holds the characters of some items**: it is in order, and those are all that it holds. -/
structure Holds (t : MoveTable) (items : List CharItem) : Prop where
  inOrder : t.InOrder
  has : ∀ c, t.has c ↔ ∃ item ∈ items, item.covers c

namespace Holds

variable {t u : MoveTable} {items others : List CharItem}

/-- A new table holds nothing. -/
lemma empty : ({} : MoveTable).Holds [] where
  inOrder := InOrder.empty
  has c := by simp

/-- One more item. -/
lemma addItem (h : t.Holds items) (item : CharItem) :
    (Build.addItem t item).Holds (item :: items) where
  inOrder := h.inOrder.addItem item
  has c := by rw [has_addItem, h.has, List.exists_mem_cons_iff, or_comm]

/-- The items of another table. -/
lemma union (h : t.Holds items) (hu : u.Holds others) : (t.union u).Holds (others ++ items) where
  inOrder := h.inOrder.union u
  has c := by
    rw [has_union, Bool.or_eq_true, h.has, hu.has]
    simp only [List.mem_append, or_and_right, exists_or]
    exact or_comm

end Holds

end MoveTable

/-! ## Edits -/

/-- **An edit** of the moves of an automaton's states. -/
inductive MoveEdit where
  /-- Adds a state without moves. -/
  | newState
  /-- Adds a character or a range to state `i`. -/
  | add (i : Nat) (item : CharItem)
  /-- Adds a state with a copy of the moves of `source`. -/
  | copy (source : Nat)
  /-- Replaces state `target` by one with a copy of the moves of `source`. -/
  | overwrite (target source : Nat)
  /-- Adds the moves of `source` to those of `target`. -/
  | merge (target source : Nat)
deriving DecidableEq, Repr

/-- The automaton after an edit. An edit that fails, since a state is to be merged with itself, changes
nothing. -/
def Automaton.edit (a : Automaton) : MoveEdit → Automaton
  | .newState => a.newState.2
  | .add i item => a.modify i fun s => { s with moves := Build.addItem s.moves item }
  | .copy source => a.push (a.state source).withoutEpsilon
  | .overwrite target source => a.modify target fun _ => (a.state source).withoutEpsilon
  | .merge target source =>
    match a.mergeMoves target source with
    | .ok b => b
    | .error _ => a

/-- **The record of what has been added** to each state, directly or with another state that was copied
or merged, after one more edit. -/
def MoveEdit.record (added : Array (List CharItem)) : MoveEdit → Array (List CharItem)
  | newState => added.push []
  | add i item => added.modify i (item :: ·)
  | copy source => added.push (added.getD source [])
  | overwrite target source => added.modify target fun _ => added.getD source []
  | merge target source =>
    if target = source then added else added.modify target (added.getD source [] ++ ·)

/-- **The invariant of edits**: the moves of each state hold what the record says. -/
structure KeepsRecord (a : Automaton) (added : Array (List CharItem)) : Prop where
  size_eq : a.size = added.size
  holds : ∀ i, (a.state i).moves.Holds (added.getD i [])

namespace KeepsRecord

variable {a : Automaton} {added : Array (List CharItem)}

/-- Before any edit there are no states, and nothing is recorded. -/
lemma empty : KeepsRecord {} #[] where
  size_eq := rfl
  holds i := by
    rw [state_of_size_le (Nat.zero_le i)]
    exact MoveTable.Holds.empty

/-- A state is added. -/
lemma push (h : KeepsRecord a added) {s : State} {items : List CharItem} (hs : s.moves.Holds items) :
    KeepsRecord (a.push s) (added.push items) where
  size_eq := by rw [size_push, Array.size_push, h.size_eq]
  holds i := by
    have hstate : (a.push s).state i = if i = a.size then s else a.state i := getD_push a.states i s {}
    rw [hstate, getD_push, h.size_eq]
    split_ifs
    · exact hs
    · exact h.holds i

/-- A state is changed.

**Proof sketch.** By cases on the place that is asked for: the changed state has the changed record, and
all others are as before. Beyond the end neither a state nor a record is changed. -/
lemma modify (h : KeepsRecord a added) (target : Nat) {f : State → State}
    {g : List CharItem → List CharItem}
    (hfg : (f (a.state target)).moves.Holds (g (added.getD target []))) :
    KeepsRecord (a.modify target f) (added.modify target g) where
  size_eq := by rw [size_modify, Array.size_modify, h.size_eq]
  holds i := by
    have hrecord : (added.modify target g).getD i [] =
        if i = target ∧ target < added.size then g (added.getD i []) else added.getD i [] :=
      getD_modify added target i g
    rw [hrecord]
    by_cases hit : i = target
    · subst hit
      rcases Nat.lt_or_ge i a.size with hlt | hge
      · rw [state_modify_self f hlt, if_pos ⟨rfl, h.size_eq ▸ hlt⟩]
        exact hfg
      · rw [state_of_size_le (by rwa [size_modify]), if_neg (by rw [← h.size_eq]; omega)]
        have hholds := h.holds i
        rwa [state_of_size_le hge] at hholds
    · rw [state_modify_of_ne f (Ne.symm hit), if_neg fun hand => hit hand.1]
      exact h.holds i

/-- **One edit** keeps the record right.

**Proof sketch.** One case per edit, each of which changes a state as it changes the record; a state is
not merged with itself. -/
lemma edit (h : KeepsRecord a added) (e : MoveEdit) : KeepsRecord (a.edit e) (e.record added) := by
  cases e with
  | newState => exact h.push MoveTable.Holds.empty
  | add i item => exact h.modify i ((h.holds i).addItem item)
  | copy source => exact h.push (h.holds source)
  | overwrite target source => exact h.modify target (h.holds source)
  | merge target source =>
    by_cases heq : target = source
    · rw [Automaton.edit, mergeMoves, if_pos heq, MoveEdit.record, if_pos heq]
      exact h
    · rw [Automaton.edit, mergeMoves, if_neg heq, MoveEdit.record, if_neg heq]
      exact h.modify target ((h.holds target).union (h.holds source))

/-- **Any sequence of edits** keeps the record right. -/
lemma foldl (edits : List MoveEdit) : ∀ {a : Automaton} {added : Array (List CharItem)},
    KeepsRecord a added → KeepsRecord (edits.foldl Automaton.edit a) (edits.foldl MoveEdit.record added) := by
  induction edits with
  | nil => exact fun h => h
  | cons e edits ih => exact fun h => ih (h.edit e)

end KeepsRecord

/-- **Move tables represent exactly the characters added.** After any sequence of edits that begins
without states, the tables of each state are in order: the single characters and the ranges lie beyond
ASCII and are strictly ascending. A state moves on a character just if the character was added to it, by
itself or in a range, directly or with the moves of another state; this is what a search by words of the
bit set and by halving finds.

**Proof sketch.** Every edit keeps the record of what has been added right (`KeepsRecord.edit`). The
tables are in order, so that searching them finds what they contain (`canMove_eq_has`). -/
theorem edited_moves (edits : List MoveEdit) (i : Nat) :
    ((edits.foldl Automaton.edit {}).state i).moves.InOrder ∧
      ∀ c, ((edits.foldl Automaton.edit {}).state i).moves.canMove c ↔
        ∃ item ∈ (edits.foldl MoveEdit.record #[]).getD i [], item.covers c := by
  have hholds := (KeepsRecord.empty.foldl edits).holds i
  refine ⟨hholds.inOrder, fun c => ?_⟩
  rw [hholds.inOrder.canMove_eq_has]
  exact hholds.has c

/-- A range is split where ASCII ends, also when it comes with another state. -/
example : (([.newState, .newState, .add 1 (.range 'y' 'ā'), .add 0 (.single 'é'), .merge 0 1].foldl
    Automaton.edit {}).state 0).moves = ⟨0x7F#128 <<< 121, ['é'], [(firstWide, 'ā')]⟩ := by decide

end GrammarForge
