import GrammarForge.Automaton.Closure
import GrammarForge.Proofs.DepthFirst
import GrammarForge.Proofs.MoveTable

set_option autoImplicit false

/-!
# Closing an automaton

What closing does to each state, in terms of the epsilon moves of the automaton before: a
closed state lists the useful states that epsilon moves lead to, and carries the lowest kind met
on the way.

## Main definitions

* `LowestKind` — the least element of a set of kinds, if it has any.
* `Automaton.InRange`, `Automaton.WellFormed` — all moves lead to states of the automaton, and
  move tables are as they are built.
* `Automaton.Silent`, `Automaton.Reaches` — one epsilon move, and any number of them.

## Main results

* `lowestKind_foldl` — what folding `leastKind` over a list computes.
* `Automaton.mem_reach` — the search behind a closure finds what epsilon moves reach.
* `Automaton.mem_epsilon_closed`, `Automaton.lowestKind_closed` — the two parts of a closed state.
-/

namespace GrammarForge

/-! ## The lowest kind of a set -/

/-- `k` is the lowest kind of the set `S`, and `none` if the set is empty. -/
def LowestKind (S : Nat → Prop) : Option Nat → Prop
  | none => ∀ k, ¬ S k
  | some k => S k ∧ ∀ j, S j → k ≤ j

/-- Two sets have the same lowest kind if each has, below every element of the other, one of
its own.

**Proof sketch.** By cases on the two kinds. A kind on one side has one below it on the other side, so
that both are there or none is; and each of two lowest kinds is below the other one. -/
lemma LowestKind.unique {S T : Nat → Prop} {a b : Option Nat} (ha : LowestKind S a)
    (hb : LowestKind T b) (hST : ∀ k, S k → ∃ j ≤ k, T j) (hTS : ∀ k, T k → ∃ j ≤ k, S j) :
    a = b := by
  cases a with
  | none =>
    cases b with
    | none => rfl
    | some j =>
      obtain ⟨i, -, hi⟩ := hTS j hb.1
      exact absurd hi (ha i)
  | some k =>
    obtain ⟨i, hik, hi⟩ := hST k ha.1
    cases b with
    | none => exact absurd hi (hb i)
    | some j =>
      obtain ⟨i', hi'j, hi'⟩ := hTS j hb.1
      have h₁ := hb.2 i hi
      have h₂ := ha.2 i' hi'
      congr 1
      omega

/-- Sets with the same elements have the same lowest kind. -/
lemma LowestKind.congr {S T : Nat → Prop} {a : Option Nat} (ha : LowestKind S a)
    (h : ∀ k, S k ↔ T k) : LowestKind T a := by
  obtain rfl : S = T := funext fun k => propext (h k)
  exact ha

/-- A subset that has an element below every element of the set has the same lowest kind. -/
lemma LowestKind.of_cofinal {S T : Nat → Prop} {a : Option Nat} (ha : LowestKind S a)
    (hTS : ∀ k, T k → S k) (hST : ∀ k, S k → ∃ j ≤ k, T j) : LowestKind T a := by
  cases a with
  | none => exact fun k hk => ha k (hTS k hk)
  | some i =>
    obtain ⟨j, hji, hj⟩ := hST i ha.1
    have hij := ha.2 j (hTS j hj)
    obtain rfl : j = i := le_antisymm hji hij
    exact ⟨hj, fun k hk => ha.2 k (hTS k hk)⟩

/-- Elements above those of a set do not change its lowest kind. -/
lemma LowestKind.of_dominated {S T : Nat → Prop} {a : Option Nat} (ha : LowestKind S a)
    (hST : ∀ k, S k → T k) (hTS : ∀ k, T k → ∃ j ≤ k, S j) : LowestKind T a := by
  cases a with
  | none =>
    intro k hk
    obtain ⟨j, -, hj⟩ := hTS k hk
    exact ha j hj
  | some i =>
    refine ⟨hST i ha.1, fun k hk => ?_⟩
    obtain ⟨j, hjk, hj⟩ := hTS k hk
    exact (ha.2 j hj).trans hjk

/-- The lower of two kinds.

**Proof sketch.** By cases on the two kinds. Where one set is empty the other one decides, and else the
lower of both is in the union and below all of it. -/
lemma lowestKind_leastKind {S T : Nat → Prop} {a b : Option Nat} (ha : LowestKind S a)
    (hb : LowestKind T b) : LowestKind (fun k => S k ∨ T k) (leastKind a b) := by
  cases a with
  | none => exact hb.congr fun k => ⟨Or.inr, fun h => h.resolve_left (ha k)⟩
  | some i =>
    cases b with
    | none => exact ha.congr fun k => ⟨Or.inl, fun h => h.resolve_right (hb k)⟩
    | some j =>
      refine ⟨?_, ?_⟩
      · rcases Nat.le_total i j with h | h
        · rw [Nat.min_eq_left h]; exact Or.inl ha.1
        · rw [Nat.min_eq_right h]; exact Or.inr hb.1
      · rintro k (hk | hk)
        · exact (Nat.min_le_left i j).trans (ha.2 k hk)
        · exact (Nat.min_le_right i j).trans (hb.2 k hk)

/-- The set of at most one kind. -/
lemma lowestKind_single (a : Option Nat) : LowestKind (fun k => a = some k) a := by
  cases a with
  | none => exact fun k h => absurd h (by simp)
  | some i => exact ⟨rfl, fun j hj => (Option.some.inj hj).le⟩

/-- **Folding `leastKind` over a list** gives the lowest of the start value and of all kinds of
its elements. -/
lemma lowestKind_foldl {α : Type} (f : α → Option Nat) (l : List α) : ∀ {S : Nat → Prop}
    {k₀ : Option Nat}, LowestKind S k₀ → LowestKind (fun k => S k ∨ ∃ x ∈ l, f x = some k)
      (l.foldl (fun k x => leastKind k (f x)) k₀) := by
  induction l with
  | nil => intro S k₀ h; exact h.congr fun k => by simp
  | cons x l ih =>
    intro S k₀ h
    refine (ih (lowestKind_leastKind h (lowestKind_single (f x)))).congr fun k => ?_
    simp [or_assoc]

/-- Reading an element of an array after one has been changed. -/
lemma getD_modify {α : Type} [Inhabited α] (xs : Array α) (k x : Nat) (change : α → α) :
    (xs.modify k change).getD x default =
      if x = k ∧ k < xs.size then change (xs.getD x default) else xs.getD x default := by
  rw [Array.getD_eq_getD_getElem?, Array.getD_eq_getD_getElem?, Array.getElem?_modify]
  by_cases hx : x = k
  · subst hx
    by_cases hlt : x < xs.size
    · simp [hlt]
    · simp [hlt]
  · rw [if_neg (Ne.symm hx), if_neg fun hand => hx hand.1]

/-- Reading an element of an array after one has been replaced. -/
lemma getD_setIfInBounds_eq {α : Type} (xs : Array α) (k x : Nat) (y d : α) :
    (xs.setIfInBounds k y).getD x d = if x = k ∧ k < xs.size then y else xs.getD x d := by
  rw [Array.getD_eq_getD_getElem?, Array.getD_eq_getD_getElem?, Array.getElem?_setIfInBounds]
  by_cases hx : x = k
  · subst hx
    by_cases hlt : x < xs.size
    · simp [hlt]
    · simp [hlt]
  · rw [if_neg (Ne.symm hx), if_neg fun hand => hx hand.1]

/-- Reading an element of an array after one has been added. -/
lemma getD_push {α : Type} (xs : Array α) (x : Nat) (y d : α) :
    (xs.push y).getD x d = if x = xs.size then y else xs.getD x d := by
  rw [Array.getD_eq_getD_getElem?, Array.getD_eq_getD_getElem?, Array.getElem?_push]
  split_ifs <;> rfl

namespace Automaton

/-! ## Access to states -/

variable {a : Automaton} {i j : Nat}

/-- The state at a place is the one that the automaton has there, or one without moves. -/
lemma state_eq_getElem? (a : Automaton) (i : Nat) : a.state i = (a.states[i]?).getD {} := by
  rw [state, Array.getD_eq_getD_getElem?]

/-- Beyond the last state there are only states without moves. -/
lemma state_of_size_le (h : a.size ≤ i) : a.state i = {} := by
  rw [state_eq_getElem?, Array.getElem?_eq_none h, Option.getD_none]

/-- Adding a state makes an automaton larger by one. -/
@[simp]
lemma size_push (a : Automaton) (s : State) : (a.push s).size = a.size + 1 := by
  simp [size, push]

/-- Changing a state keeps the size. -/
@[simp]
lemma size_modify (a : Automaton) (f : State → State) : (a.modify i f).size = a.size := by
  simp [size, modify]

/-- Adding an epsilon move keeps the size. -/
@[simp]
lemma size_addEpsilon (a : Automaton) : (a.addEpsilon i j).size = a.size := by
  simp [addEpsilon]

/-- Closing from some place on keeps the size. -/
@[simp]
lemma size_closeFrom (a : Automaton) (start : Nat) : (a.closeFrom start).size = a.size := by
  simp [size, closeFrom]

/-- Closing keeps the size. -/
@[simp]
lemma size_close (a : Automaton) : a.close.size = a.size := size_closeFrom a 0

/-- Adding a state changes no other one. -/
lemma state_push_of_lt (s : State) (h : i < a.size) : (a.push s).state i = a.state i := by
  have hne : i ≠ a.states.size := Nat.ne_of_lt h
  rw [state_eq_getElem?, state_eq_getElem?, push, Array.getElem?_push, if_neg hne]

/-- The state that is added is the last one. -/
@[simp]
lemma state_push_size (a : Automaton) (s : State) : (a.push s).state a.size = s := by
  rw [state_eq_getElem?, push, size, Array.getElem?_push_size, Option.getD_some]

/-- A change is made to the state at its place. -/
lemma state_modify_self (f : State → State) (h : i < a.size) :
    (a.modify i f).state i = f (a.state i) := by
  rw [state_eq_getElem?, state_eq_getElem?, modify, Array.getElem?_modify, if_pos rfl,
    Array.getElem?_eq_getElem h]
  rfl

/-- A change leaves the states at other places alone. -/
lemma state_modify_of_ne (f : State → State) (h : i ≠ j) :
    (a.modify i f).state j = a.state j := by
  rw [state_eq_getElem?, state_eq_getElem?, modify, Array.getElem?_modify, if_neg h]

/-- States before the place where closing begins stay as they are. -/
lemma state_closeFrom_of_lt {start : Nat} (h : i < start) :
    (a.closeFrom start).state i = a.state i := by
  rw [state_eq_getElem?, state_eq_getElem?, closeFrom, Array.getElem?_mapIdx]
  cases a.states[i]? with
  | none => rfl
  | some s => simp [h]

/-- States from the place on where closing begins are closed. -/
lemma state_closeFrom_of_le {start : Nat} (h : start ≤ i) (hi : i < a.size) :
    (a.closeFrom start).state i = a.closed i (a.state i) := by
  rw [state_eq_getElem?, state_eq_getElem?, closeFrom, Array.getElem?_mapIdx,
    Array.getElem?_eq_getElem hi]
  simp [Nat.not_lt.mpr h]

/-- Every state of a closed automaton has been closed. -/
lemma state_close (hi : i < a.size) : a.close.state i = a.closed i (a.state i) :=
  state_closeFrom_of_le (Nat.zero_le i) hi

/-- A state is closed, or stays as it is. -/
lemma state_closeFrom (a : Automaton) (start i : Nat) :
    (a.closeFrom start).state i = a.state i ∨
      (start ≤ i ∧ i < a.size ∧ (a.closeFrom start).state i = a.closed i (a.state i)) := by
  rcases Nat.lt_or_ge i start with hi | hi
  · exact Or.inl (state_closeFrom_of_lt hi)
  · rcases Nat.lt_or_ge i a.size with hi' | hi'
    · exact Or.inr ⟨hi, hi', state_closeFrom_of_le hi hi'⟩
    · rw [state_of_size_le hi', state_of_size_le (by simpa using hi')]
      exact Or.inl rfl

/-- Closing keeps the move tables. -/
@[simp]
lemma closeFrom_moves (a : Automaton) (start i : Nat) :
    ((a.closeFrom start).state i).moves = (a.state i).moves := by
  rcases a.state_closeFrom start i with h | ⟨-, -, h⟩
  · rw [h]
  · rw [h]
    rfl

/-- Closing keeps the next states. -/
@[simp]
lemma closeFrom_next (a : Automaton) (start i : Nat) :
    ((a.closeFrom start).state i).next = (a.state i).next := by
  rcases a.state_closeFrom start i with h | ⟨-, -, h⟩
  · rw [h]
  · rw [h]
    rfl

/-- Closing keeps which states are final. -/
@[simp]
lemma closeFrom_isFinal (a : Automaton) (start i : Nat) :
    ((a.closeFrom start).state i).isFinal = (a.state i).isFinal := by
  rcases a.state_closeFrom start i with h | ⟨-, -, h⟩
  · rw [h]
  · rw [h]
    rfl

/-- All moves of the automaton lead to states that it has. -/
structure InRange (a : Automaton) : Prop where
  epsilon : ∀ i, ∀ j ∈ (a.state i).epsilon, j < a.size
  next : ∀ i n, (a.state i).next = some n → n < a.size

/-- All moves lead to states of the automaton, and the move tables are in order, as adding characters
and ranges makes them. -/
structure WellFormed (a : Automaton) : Prop extends InRange a where
  inOrder : ∀ i, (a.state i).moves.InOrder

/-- What is true of all states of an automaton, and of one without moves, is true at every place.

**Proof sketch.** Each place of the automaton has one of the states of its list, and beyond the last one
there is the state without moves. -/
lemma forall_state_iff {P : State → Prop} (hP : P {}) :
    (∀ i, P (a.state i)) ↔ ∀ s ∈ a.states.toList, P s := by
  constructor
  · intro h s hs
    obtain ⟨i, hi, rfl⟩ := List.mem_iff_getElem.mp hs
    have hstate : a.state i = a.states.toList[i] := by
      rw [state_eq_getElem?, ← Array.getElem?_toList, List.getElem?_eq_getElem hi, Option.getD_some]
    rw [← hstate]
    exact h i
  · intro h i
    rw [state_eq_getElem?, ← Array.getElem?_toList]
    cases hi : a.states.toList[i]? with
    | none => exact hP
    | some s => exact h s (List.mem_of_getElem? hi)

/-- All moves lead to states of the automaton if those of each state do. -/
lemma inRange_iff : a.InRange ↔
    ∀ s ∈ a.states.toList, (∀ j ∈ s.epsilon, j < a.size) ∧ ∀ n ∈ s.next, n < a.size := by
  have hempty : (∀ j ∈ ({} : State).epsilon, j < a.size) ∧ ∀ n ∈ ({} : State).next, n < a.size := by
    simp
  rw [← forall_state_iff hempty]
  exact ⟨fun h i => ⟨h.epsilon i, h.next i⟩, fun h => ⟨fun i => (h i).1, fun i => (h i).2⟩⟩

/-- An automaton is well formed if its moves are in range and each of its move tables is in order. -/
lemma wellFormed_iff :
    a.WellFormed ↔ a.InRange ∧ ∀ s ∈ a.states.toList, s.moves.InOrder := by
  rw [← forall_state_iff (P := fun s => s.moves.InOrder) MoveTable.InOrder.empty]
  exact ⟨fun h => ⟨h.toInRange, h.inOrder⟩, fun h => ⟨h.1, h.2⟩⟩

instance : Decidable a.InRange := decidable_of_iff _ inRange_iff.symm

instance : Decidable a.WellFormed := decidable_of_iff _ wellFormed_iff.symm

/-! ## What epsilon moves reach -/

/-- There is an epsilon move from `i` to `j`. -/
def Silent (a : Automaton) (i j : Nat) : Prop := j ∈ (a.state i).epsilon

/-- Epsilon moves lead from `i` to `j`. -/
abbrev Reaches (a : Automaton) : Nat → Nat → Prop := Relation.ReflTransGen a.Silent

/-- Epsilon moves lead only to states of the automaton. -/
lemma Reaches.lt (h : a.Reaches i j) (hr : a.InRange) (hi : i < a.size) : j < a.size := by
  induction h with
  | refl => exact hi
  | tail _ hstep _ => exact hr.epsilon _ _ hstep

/-- The search behind a closure finds what epsilon moves reach. -/
lemma mem_reach (hr : a.InRange) {roots : List Nat} (hroots : ∀ s ∈ roots, s < a.size) {t : Nat} :
    t ∈ a.reach roots ↔ ∃ s ∈ roots, a.Reaches s t := by
  have hstep : (fun i j => j ∈ (a.state i).epsilon ∧ j < a.size) = a.Silent := by
    funext i j
    exact propext ⟨And.left, fun h => ⟨h, hr.epsilon i j h⟩⟩
  rw [reach, mem_depthFirst, hstep]
  constructor
  · rintro ⟨s, hs, -, hp⟩
    exact ⟨s, hs, hp⟩
  · rintro ⟨s, hs, hp⟩
    exact ⟨s, hs, hroots s hs, hp⟩

/-- The states found from the epsilon set of state `i`. -/
lemma mem_reach_epsilon (hr : a.InRange) {t : Nat} :
    t ∈ a.reach (a.state i).epsilon ↔ Relation.TransGen a.Silent i t := by
  rw [mem_reach hr (hr.epsilon i), Relation.TransGen.head'_iff]
  rfl

/-- **The epsilon set of a closed state**: the useful states that epsilon moves reach, and the
state itself if it has moves. -/
lemma mem_epsilon_closed (hr : a.InRange) {t : Nat} :
    t ∈ (a.closed i (a.state i)).epsilon ↔
      (t = i ∧ (a.state i).hasMoves) ∨ (t ≠ i ∧ (a.state t).isUseful ∧ a.Reaches i t) := by
  have hreach : t ≠ i → (t ∈ a.reach (a.state i).epsilon ↔ a.Reaches i t) := by
    intro hne
    rw [mem_reach_epsilon hr, Reaches, Relation.reflTransGen_iff_eq_or_transGen]
    exact ⟨Or.inr, fun h => h.resolve_left hne⟩
  rw [closed, mem_sortedSet]
  by_cases hm : (a.state i).hasMoves <;> by_cases hne : t = i <;> simp [hm, hne, hreach] <;> grind

/-- Epsilon moves lead to all that is in the epsilon set of a closed state. -/
lemma reaches_of_mem_closed (hr : a.InRange) {t : Nat}
    (h : t ∈ (a.closed i (a.state i)).epsilon) : a.Reaches i t := by
  rcases (mem_epsilon_closed hr).mp h with ⟨rfl, -⟩ | ⟨-, -, h⟩
  · exact .refl
  · exact h

/-- Closing leads to no other states than those of the automaton. -/
lemma InRange.closeFrom (h : a.InRange) (start : Nat) : (a.closeFrom start).InRange := by
  refine ⟨fun i j hj => ?_, fun i n hn => ?_⟩
  · rw [size_closeFrom]
    rcases a.state_closeFrom start i with heq | ⟨-, hi, heq⟩
    · rw [heq] at hj
      exact h.epsilon i j hj
    · rw [heq] at hj
      exact (reaches_of_mem_closed h hj).lt h hi
  · rw [closeFrom_next] at hn
    rw [size_closeFrom]
    exact h.next i n hn

/-- A state with moves that epsilon moves reach is in the epsilon set of a closed state. -/
lemma mem_closed_of_reaches (hr : a.InRange) {t : Nat} (h : a.Reaches i t)
    (hm : (a.state t).hasMoves) : t ∈ (a.closed i (a.state i)).epsilon := by
  rw [mem_epsilon_closed hr]
  by_cases hti : t = i
  · exact Or.inl ⟨hti, hti ▸ hm⟩
  · exact Or.inr ⟨hti, by simp [State.isUseful, hm], h⟩

/-- **The kind of a closed state**: the lowest kind among the states that epsilon moves reach. -/
lemma lowestKind_closed (hr : a.InRange) :
    LowestKind (fun k => ∃ t, a.Reaches i t ∧ (a.state t).kind = some k)
      (a.closed i (a.state i)).kind := by
  refine (lowestKind_foldl (fun t => (a.state t).kind) _ (lowestKind_single _)).congr fun k => ?_
  simp only [mem_reach_epsilon hr]
  constructor
  · rintro (h | ⟨t, ht, hk⟩)
    · exact ⟨i, .refl, h⟩
    · exact ⟨t, ht.to_reflTransGen, hk⟩
  · rintro ⟨t, ht, hk⟩
    rcases Relation.reflTransGen_iff_eq_or_transGen.mp ht with rfl | ht
    · exact Or.inl hk
    · exact Or.inr ⟨t, ht, hk⟩

end Automaton

end GrammarForge
