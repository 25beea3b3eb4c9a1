import GrammarForge.Automaton.Reduction
import GrammarForge.Proofs.AutomatonRun
import Mathlib.Order.Filter.AtTopBot.Basic

set_option autoImplicit false

/-!
# Closing by sweeps

An automaton can also be closed in place. A sweep goes through the states in order and adds to the
epsilon set of each one what the states in it lead to, as these are at that moment; so one sweep may
lead several moves further. When a sweep changes nothing any more, useless states are dropped. This
comes to an end for every automaton, with cycles of epsilon moves or without, and gives the same
automaton as the search for all that epsilon moves reach. Closing an automaton again changes nothing,
although states that lay between others have been dropped.

## Main definitions

* `Automaton.sweep`, `Automaton.trim` — one sweep, and what is done after the last one.
* `Automaton.SweepsTo` — sweeping comes to an end.
* `Automaton.Settled` — automata that closing leaves as they are.

## Main results

* `Automaton.exists_sweepsTo`, `Automaton.SweepsTo.trim_eq` — sweeping ends, with the closed automaton.
* `Automaton.Settled.close_eq`, `Automaton.settled_close` — a closed automaton stays as it is.
* `Automaton.closures_exact` — what closing does to an automaton.
-/

namespace GrammarForge

open Relation

/-- The lowest kind of a set is not above any kind of the set. -/
lemma LowestKind.le {S : Nat → Prop} {a : Option Nat} (ha : LowestKind S a) {k : Nat} (hk : S k) :
    ∃ j ≤ k, a = some j := by
  cases a with
  | none => exact absurd hk (ha k)
  | some j => exact ⟨j, ha.2 k hk, rfl⟩

namespace Automaton

variable {a b c : Automaton} {start i t u : Nat}

/-- Automata with the same states are equal. -/
lemma ext_state (hsize : a.size = b.size) (h : ∀ i < a.size, a.state i = b.state i) : a = b := by
  have hstates : a.states = b.states := by
    refine Array.ext hsize fun i hi hi' => ?_
    have hstate := h i hi
    rwa [state_eq_getElem?, state_eq_getElem?, Array.getElem?_eq_getElem hi,
      Array.getElem?_eq_getElem hi'] at hstate
  exact congrArg Automaton.mk hstates

/-- The sorted list of some numbers ascends. -/
lemma ascending_sortedSet (l : List Nat) : (sortedSet compare l).Pairwise (· < ·) :=
  (pairwise_sortedSet compare).imp compare_lt_iff_lt.mp

/-! ## Sweeps -/

/-- The state `s` with all that the states in its epsilon set lead to, and with the lowest of their
kinds. -/
def widened (a : Automaton) (s : State) : State :=
  { s with
    epsilon := sortedSet compare (s.epsilon ++ s.epsilon.flatMap fun t => (a.state t).epsilon)
    kind := s.epsilon.foldl (fun k t => leastKind k (a.state t).kind) s.kind }

/-- Widens the epsilon set of the state at place `i`. -/
def widen (a : Automaton) (i : Nat) : Automaton := a.modify i a.widened

/-- **One sweep** over the states from place `start` on. Every state sees what has become of those
before it. -/
def sweep (start : Nat) (a : Automaton) : Automaton :=
  (List.range' start (a.size - start)).foldl widen a

/-- Drops useless states from the epsilon set of the state `s` at place `i`; a state with moves stays
in its own set, or gets there. -/
def trimmed (a : Automaton) (i : Nat) (s : State) : State :=
  let useful := s.epsilon.filter fun t => t ≠ i && (a.state t).isUseful
  { s with epsilon := sortedSet compare (if s.hasMoves then i :: useful else useful) }

/-- Drops useless states from the epsilon sets of the states from place `start` on. -/
def trim (start : Nat) (a : Automaton) : Automaton :=
  ⟨a.states.mapIdx fun i s => if i < start then s else a.trimmed i s⟩

/-- Sweeping over the states of `a` from place `start` on **ends with `b`**: some sweeps lead there,
and another one changes nothing. -/
def SweepsTo (start : Nat) (a b : Automaton) : Prop :=
  (∃ n, (sweep start)^[n] a = b) ∧ sweep start b = b

/-! ## What sweeps keep -/

/-- Widening adds no state. -/
@[simp]
lemma size_widen (b : Automaton) (i : Nat) : (b.widen i).size = b.size := size_modify _ _

/-- The widened state has the epsilon moves of those it leads to as well. -/
lemma widen_state_self (hi : i < b.size) : (b.widen i).state i = b.widened (b.state i) :=
  state_modify_self _ hi

/-- Widening leaves the other states alone. -/
lemma widen_state_of_ne {x : Nat} (h : x ≠ i) : (b.widen i).state x = b.state x :=
  state_modify_of_ne _ h.symm

/-- What a widened state leads to. -/
lemma mem_epsilon_widened {s : State} : t ∈ (b.widened s).epsilon ↔
    t ∈ s.epsilon ∨ ∃ x ∈ s.epsilon, b.Silent x t := by
  rw [widened, mem_sortedSet, List.mem_append, List.mem_flatMap]
  rfl

/-- The kind of a widened state. -/
lemma lowestKind_widened (s : State) : LowestKind
    (fun k => s.kind = some k ∨ ∃ x ∈ s.epsilon, (b.state x).kind = some k) (b.widened s).kind :=
  lowestKind_foldl (fun x => (b.state x).kind) s.epsilon (lowestKind_single s.kind)

/-- Trimming adds no state. -/
@[simp]
lemma size_trim (b : Automaton) (start : Nat) : (b.trim start).size = b.size := by
  simp [size, trim]

/-- States before the first one to be trimmed stay. -/
lemma state_trim_of_lt (hi : i < start) : (b.trim start).state i = b.state i := by
  rw [state_eq_getElem?, state_eq_getElem?, trim, Array.getElem?_mapIdx]
  cases b.states[i]? with
  | none => rfl
  | some s => simp [hi]

/-- The other states are trimmed. -/
lemma state_trim_of_le (hi : start ≤ i) (hi' : i < b.size) :
    (b.trim start).state i = b.trimmed i (b.state i) := by
  rw [state_eq_getElem?, state_eq_getElem?, trim, Array.getElem?_mapIdx,
    Array.getElem?_eq_getElem hi']
  simp [Nat.not_lt.mpr hi]

/-- What is left of an epsilon set. -/
lemma mem_epsilon_trimmed {s : State} : t ∈ (b.trimmed i s).epsilon ↔
    (t = i ∧ s.hasMoves) ∨ (t ≠ i ∧ (b.state t).isUseful ∧ t ∈ s.epsilon) := by
  rw [trimmed, mem_sortedSet]
  by_cases hm : s.hasMoves <;> simp [hm] <;> tauto

/-- **The automaton `b` is `a` with wider epsilon sets** from place `start` on: nothing is lost, and
nothing is there that epsilon moves of `a` do not reach. -/
structure Widens (start : Nat) (a b : Automaton) : Prop where
  size_eq : b.size = a.size
  before : ∀ {i}, i < start → b.state i = a.state i
  frame : ∀ i, b.state i =
    { a.state i with epsilon := (b.state i).epsilon, kind := (b.state i).kind }
  silent : ∀ {i t}, a.Silent i t → b.Silent i t
  reached : ∀ {i t}, b.Silent i t → TransGen a.Silent i t
  lowers : ∀ {i k}, (a.state i).kind = some k → ∃ j ≤ k, (b.state i).kind = some j
  kind : ∀ {i k}, (b.state i).kind = some k → ∃ t, a.Reaches i t ∧ (a.state t).kind = some k

/-- A later automaton has all that an earlier one has, kinds are only lowered, and what ascends goes on
ascending. -/
structure Ahead (b c : Automaton) : Prop where
  silent : ∀ {i t}, b.Silent i t → c.Silent i t
  lowers : ∀ {i k}, (b.state i).kind = some k → ∃ j ≤ k, (c.state i).kind = some j
  ascending : ∀ {i}, (b.state i).epsilon.Pairwise (· < ·) → (c.state i).epsilon.Pairwise (· < ·)

namespace Ahead

/-- Nothing is ahead of itself. -/
lemma refl (b : Automaton) : Ahead b b := ⟨id, fun hk => ⟨_, le_rfl, hk⟩, id⟩

/-- What is ahead of something ahead is ahead. -/
lemma trans {d : Automaton} (h : Ahead b c) (h' : Ahead c d) : Ahead b d where
  silent hit := h'.silent (h.silent hit)
  lowers hk := by
    obtain ⟨j, hj, hk⟩ := h.lowers hk
    obtain ⟨l, hl, hk⟩ := h'.lowers hk
    exact ⟨l, hl.trans hj, hk⟩
  ascending hi := h'.ascending (h.ascending hi)

/-- Widening one epsilon set.

**Proof sketch.** By whether the state is the widened one: its epsilon set, its kind and its order are
those of the widened state; all other states stay as they are. -/
lemma widen (b : Automaton) (i : Nat) : Ahead b (b.widen i) := by
  rcases Nat.lt_or_ge i b.size with hi | hi
  · refine ⟨fun {x t} hxt => ?_, fun {x k} hk => ?_, fun {x} hx => ?_⟩ <;> by_cases hxi : x = i
    · subst hxi
      rw [Silent, widen_state_self hi, mem_epsilon_widened]
      exact Or.inl hxt
    · rwa [Silent, widen_state_of_ne hxi]
    · subst hxi
      rw [widen_state_self hi]
      exact (lowestKind_widened _).le (Or.inl hk)
    · rw [widen_state_of_ne hxi]
      exact ⟨k, le_rfl, hk⟩
    · subst hxi
      rw [widen_state_self hi]
      exact ascending_sortedSet _
    · rwa [widen_state_of_ne hxi]
  · have hsame : b.widen i = b := ext_state (size_modify _ _) fun x hx => by
      rw [size_widen] at hx
      exact widen_state_of_ne (by omega)
    rw [hsame]
    exact refl b

/-- Widening one state after the other goes ahead. -/
lemma foldl_widen (is : List Nat) : ∀ b : Automaton, Ahead b (is.foldl Automaton.widen b) := by
  induction is with
  | nil => exact refl
  | cons i is ih => exact fun b => (widen b i).trans (ih _)

end Ahead

namespace Widens

/-- Nothing is widened. -/
lemma refl (start : Nat) (a : Automaton) : Widens start a a :=
  ⟨rfl, fun _ => rfl, fun _ => rfl, id, .single, fun hk => ⟨_, le_rfl, hk⟩,
    fun hk => ⟨_, .refl, hk⟩⟩

/-- Widening changes no moves. -/
lemma hasMoves_eq (h : Widens start a b) (i : Nat) : (b.state i).hasMoves = (a.state i).hasMoves := by
  rw [h.frame i]
  rfl

/-- Widening does not change whether a state is useful. -/
lemma isUseful_eq (h : Widens start a b) (i : Nat) : (b.state i).isUseful = (a.state i).isUseful := by
  rw [h.frame i]
  rfl

/-- **Widening the epsilon set of one state** after `start`. What the states in it lead to is reached
in `a`, since whatever leads there is.

**Proof sketch.** The state has changed only in its epsilon set and its kind. What is in the set was
there before, or is led to by a member; both are reached in the original automaton. Likewise a kind was
its own or that of a member. -/
lemma widen (h : Widens start a b) (hi : start ≤ i) (hi' : i < b.size) :
    Widens start a (b.widen i) where
  size_eq := (size_modify _ _).trans h.size_eq
  before hx := (widen_state_of_ne (by omega)).trans (h.before hx)
  frame x := by
    by_cases hxi : x = i
    · subst hxi
      rw [widen_state_self hi', widened, h.frame x]
    · rw [widen_state_of_ne hxi]
      exact h.frame x
  silent hxt := (Ahead.widen b i).silent (h.silent hxt)
  reached := by
    intro x t hxt
    by_cases hxi : x = i
    · subst hxi
      rw [Silent, widen_state_self hi', mem_epsilon_widened] at hxt
      rcases hxt with hxt | ⟨y, hxy, hyt⟩
      · exact h.reached hxt
      · exact (h.reached hxy).trans (h.reached hyt)
    · rw [Silent, widen_state_of_ne hxi] at hxt
      exact h.reached hxt
  lowers hk := by
    obtain ⟨j, hj, hk⟩ := h.lowers hk
    obtain ⟨l, hl, hk⟩ := (Ahead.widen b i).lowers hk
    exact ⟨l, hl.trans hj, hk⟩
  kind := by
    intro x k hk
    by_cases hxi : x = i
    · subst hxi
      rw [widen_state_self hi'] at hk
      have hlow := b.lowestKind_widened (b.state x)
      rw [hk] at hlow
      rcases hlow.1 with hk | ⟨y, hxy, hk⟩
      · exact h.kind hk
      · obtain ⟨t, hyt, hk⟩ := h.kind hk
        exact ⟨t, (h.reached hxy).to_reflTransGen.trans hyt, hk⟩
    · rw [widen_state_of_ne hxi] at hk
      exact h.kind hk

/-- Several states are widened one after the other. -/
lemma foldl_widen : ∀ (is : List Nat) {b : Automaton}, Widens start a b →
    (∀ i ∈ is, start ≤ i ∧ i < a.size) → Widens start a (is.foldl Automaton.widen b)
  | [], _, h, _ => h
  | i :: is, b, h, his => by
    obtain ⟨hi, his⟩ := List.forall_mem_cons.mp his
    exact foldl_widen is (h.widen hi.1 (by rw [h.size_eq]; exact hi.2)) his

end Widens

/-- The places that a sweep goes through. -/
lemma mem_places : i ∈ List.range' start (a.size - start) ↔ start ≤ i ∧ i < a.size := by
  rw [List.mem_range'_1]
  omega

/-- **A sweep keeps what is reached.** -/
lemma Widens.sweep (h : Widens start a b) : Widens start a (sweep start b) :=
  foldl_widen _ h fun i hi => by rwa [mem_places, h.size_eq] at hi

/-- All sweeps together widen. -/
lemma widens_iterate (start : Nat) (a : Automaton) (n : Nat) :
    Widens start a ((Automaton.sweep start)^[n] a) := by
  induction n with
  | zero => exact Widens.refl start a
  | succ n ih =>
    rw [Function.iterate_succ_apply']
    exact ih.sweep

/-! ## What a sweep achieves -/

/-- During a sweep every place has its turn: the state there is widened in an automaton that is ahead
of the one before the sweep, and the sweep goes on from there.

**Proof sketch.** The sweep is divided at the place: what comes before widens other states, and what
comes behind goes ahead. -/
lemma Widens.exists_turn (h : Widens start a b) (hi : start ≤ i) (hi' : i < a.size) :
    ∃ c, Widens start a c ∧ Ahead b c ∧ Ahead (c.widen i) (Automaton.sweep start b) := by
  have hmem : i ∈ List.range' start (b.size - start) :=
    mem_places.mpr ⟨hi, by rw [h.size_eq]; exact hi'⟩
  obtain ⟨before, after, hsplit⟩ := List.mem_iff_append.mp hmem
  refine ⟨before.foldl Automaton.widen b, foldl_widen before h fun x hx => ?_,
    Ahead.foldl_widen before b, ?_⟩
  · have hx : x ∈ List.range' start (b.size - start) := by
      rw [hsplit]
      exact List.mem_append_left _ hx
    rwa [mem_places, h.size_eq] at hx
  · rw [Automaton.sweep, hsplit, List.foldl_append, List.foldl_cons]
    exact Ahead.foldl_widen after _

/-- A sweep follows epsilon moves of the automaton by one more, and comes to see their kinds.

**Proof sketch.** When the state has its turn, it leads to what it led to before, and takes over the
epsilon moves of this and its kind. -/
lemma Widens.follows (h : Widens start a b) (hi : start ≤ i) (hi' : i < a.size)
    (hit : b.Silent i t) :
    (∀ {u}, a.Silent t u → (Automaton.sweep start b).Silent i u) ∧
      ∀ {k}, (a.state t).kind = some k →
        ∃ j ≤ k, ((Automaton.sweep start b).state i).kind = some j := by
  obtain ⟨c, hc, hbc, hnext⟩ := h.exists_turn hi hi'
  have hic : i < c.size := by rw [hc.size_eq]; exact hi'
  have hit := hbc.silent hit
  refine ⟨fun htu => hnext.silent ?_, fun hk => ?_⟩
  · rw [Silent, widen_state_self hic, mem_epsilon_widened]
    exact Or.inr ⟨t, hit, hc.silent htu⟩
  · obtain ⟨j, hj, hk⟩ := hc.lowers hk
    obtain ⟨l, hl, hk⟩ := (lowestKind_widened (b := c) (c.state i)).le (Or.inr ⟨t, hit, hk⟩)
    rw [← widen_state_self hic] at hk
    obtain ⟨m, hm, hk⟩ := hnext.lowers hk
    exact ⟨m, (hm.trans hl).trans hj, hk⟩

/-- After a sweep the epsilon sets ascend. -/
lemma Widens.ascending (h : Widens start a b) (hi : start ≤ i) (hi' : i < a.size) :
    ((Automaton.sweep start b).state i).epsilon.Pairwise (· < ·) := by
  obtain ⟨c, hc, -, hnext⟩ := h.exists_turn hi hi'
  refine hnext.ascending ?_
  rw [widen_state_self (by rw [hc.size_eq]; exact hi')]
  exact ascending_sortedSet _

/-- **Wide enough**: from place `start` on, the epsilon sets of `b` ascend and have all that epsilon
moves of `a` reach, and the kinds are the lowest met on the way. -/
structure Saturates (start : Nat) (a b : Automaton) : Prop extends Widens start a b where
  complete : ∀ {i t}, start ≤ i → i < a.size → TransGen a.Silent i t → b.Silent i t
  lowest : ∀ {i t k}, start ≤ i → i < a.size → a.Reaches i t → (a.state t).kind = some k →
    ∃ j ≤ k, (b.state i).kind = some j
  ascending : ∀ {i}, start ≤ i → i < a.size → (b.state i).epsilon.Pairwise (· < ·)

namespace Saturates

/-- Saturated kinds are the lowest ones that can be reached. -/
lemma lowestKind (h : Saturates start a b) (hi : start ≤ i) (hi' : i < a.size) :
    LowestKind (fun k => ∃ t, a.Reaches i t ∧ (a.state t).kind = some k) (b.state i).kind := by
  cases hkind : (b.state i).kind with
  | none =>
    rintro k ⟨t, hit, hk⟩
    obtain ⟨j, -, hj⟩ := h.lowest hi hi' hit hk
    rw [hkind] at hj
    cases hj
  | some k =>
    refine ⟨h.kind hkind, ?_⟩
    rintro j ⟨t, hit, hj⟩
    obtain ⟨l, hl, hkind'⟩ := h.lowest hi hi' hit hj
    rw [hkind, Option.some_inj] at hkind'
    exact hkind'.trans_le hl

/-- There is only one such automaton.

**Proof sketch.** State by state: what an epsilon set is made of, and in which order, is determined by
what can be reached; and so is the lowest kind. -/
lemma unique (h : Saturates start a b) (h' : Saturates start a c) : b = c := by
  refine ext_state (h.size_eq.trans h'.size_eq.symm) fun i hi => ?_
  rw [h.size_eq] at hi
  rcases Nat.lt_or_ge i start with hlt | hge
  · rw [h.before hlt, h'.before hlt]
  · have hepsilon : (b.state i).epsilon = (c.state i).epsilon := by
      refine List.Pairwise.eq_of_mem_iff (h.ascending hge hi) (h'.ascending hge hi) fun t => ?_
      exact ⟨fun ht => h'.complete hge hi (h.reached ht), fun ht => h.complete hge hi (h'.reached ht)⟩
    have hkind : (b.state i).kind = (c.state i).kind :=
      (h.lowestKind hge hi).unique (h'.lowestKind hge hi) (fun k hk => ⟨k, le_rfl, hk⟩)
        fun k hk => ⟨k, le_rfl, hk⟩
    rw [h.frame i, hepsilon, hkind]
    exact (h'.frame i).symm

/-- **Dropping useless states** gives the closed automaton. What sweeps reach beyond the state itself
is what the search reaches, and whether a state is useful does not depend on what is swept.

**Proof sketch.** State by state. The swept epsilon set has just what can be reached by at least one
epsilon move; trimmed, it agrees with what the search reaches, which is trimmed in the same way. -/
lemma trim_eq (ha : a.InRange) (h : Saturates start a b) : b.trim start = a.closeFrom start := by
  refine ext_state (by simp [h.size_eq]) fun i hi => ?_
  rw [size_trim, h.size_eq] at hi
  rcases Nat.lt_or_ge i start with hlt | hge
  · rw [state_trim_of_lt hlt, state_closeFrom_of_lt hlt, h.before hlt]
  rw [state_trim_of_le hge (by rw [h.size_eq]; exact hi), state_closeFrom_of_le hge hi]
  have hepsilon : (b.trimmed i (b.state i)).epsilon = (a.closed i (a.state i)).epsilon := by
    refine (ascending_sortedSet _).eq_of_mem_iff (ascending_sortedSet _) fun t => ?_
    change t ∈ (b.trimmed i (b.state i)).epsilon ↔ t ∈ (a.closed i (a.state i)).epsilon
    have hmem : t ∈ (b.state i).epsilon ↔ TransGen a.Silent i t := ⟨h.reached, h.complete hge hi⟩
    have hreach : a.Reaches i t ↔ t = i ∨ TransGen a.Silent i t := reflTransGen_iff_eq_or_transGen
    rw [mem_epsilon_trimmed, mem_epsilon_closed ha, h.hasMoves_eq, h.isUseful_eq, hmem, hreach]
    tauto
  have hkind : (b.state i).kind = (a.closed i (a.state i)).kind :=
    (h.lowestKind hge hi).unique (lowestKind_closed ha) (fun k hk => ⟨k, le_rfl, hk⟩)
      fun k hk => ⟨k, le_rfl, hk⟩
  calc b.trimmed i (b.state i)
      = { a.state i with
          epsilon := (b.trimmed i (b.state i)).epsilon, kind := (b.state i).kind } := by
        rw [trimmed, h.frame i]
    _ = a.closed i (a.state i) := by
        rw [hepsilon, hkind]
        rfl

end Saturates

/-! ## Sweeping comes to an end -/

/-- Sooner or later a sweep sees what epsilon moves reach. -/
lemma eventually_silent (hi : start ≤ i) (hi' : i < a.size) (h : TransGen a.Silent i t) :
    ∀ᶠ n in Filter.atTop, ((sweep start)^[n] a).Silent i t := by
  induction h with
  | single hit => exact .of_forall fun n => (widens_iterate start a n).silent hit
  | tail _ htu ih =>
    rw [← Filter.map_add_atTop_eq_nat 1]
    refine ih.mono fun n hn => ?_
    change ((sweep start)^[n + 1] a).Silent i _
    rw [Function.iterate_succ_apply']
    exact ((widens_iterate start a n).follows hi hi' hn).1 htu

/-- Sooner or later the kind of a state is not above the kinds that epsilon moves reach. -/
lemma eventually_lowers {k : Nat} (hi : start ≤ i) (hi' : i < a.size) (h : a.Reaches i t)
    (hk : (a.state t).kind = some k) :
    ∀ᶠ n in Filter.atTop, ∃ j ≤ k, (((sweep start)^[n] a).state i).kind = some j := by
  rcases reflTransGen_iff_eq_or_transGen.mp h with rfl | h
  · exact .of_forall fun n => (widens_iterate start a n).lowers hk
  · rw [← Filter.map_add_atTop_eq_nat 1]
    refine (eventually_silent hi hi' h).mono fun n hn => ?_
    change ∃ j ≤ k, (((sweep start)^[n + 1] a).state i).kind = some j
    rw [Function.iterate_succ_apply']
    exact ((widens_iterate start a n).follows hi hi' hn).2 hk

/-- **Enough sweeps saturate** an automaton, since it has only so many states that can be reached.

**Proof sketch.** For each pair of states, one of which reaches the other, the epsilon move is there
after enough sweeps, and the kind is as low as it should be. There are finitely many pairs, and sweeps
only go ahead. -/
lemma eventually_saturates (ha : a.InRange) (start : Nat) :
    ∀ᶠ n in Filter.atTop, Saturates start a ((sweep start)^[n] a) := by
  have hsilent : ∀ᶠ n in Filter.atTop, ∀ i ∈ Finset.range a.size, ∀ t ∈ Finset.range a.size,
      start ≤ i → TransGen a.Silent i t → ((sweep start)^[n] a).Silent i t := by
    simp only [Filter.eventually_all_finset, Filter.eventually_imp_distrib_left]
    exact fun i hi' t _ hi h => eventually_silent hi (Finset.mem_range.mp hi') h
  have hkind : ∀ᶠ n in Filter.atTop, ∀ i ∈ Finset.range a.size, ∀ t ∈ Finset.range a.size,
      start ≤ i → a.Reaches i t → ∀ k ∈ (a.state t).kind.toFinset,
        ∃ j ≤ k, (((sweep start)^[n] a).state i).kind = some j := by
    simp only [Filter.eventually_all_finset, Filter.eventually_imp_distrib_left]
    exact fun i hi' t _ hi h k hk =>
      eventually_lowers hi (Finset.mem_range.mp hi') h (Option.mem_toFinset.mp hk)
  filter_upwards [hsilent, hkind, Filter.eventually_gt_atTop 0] with n hsilent hkind hn
  refine ⟨widens_iterate start a n, fun {i t} hi hi' h => ?_, fun {i t k} hi hi' h hk => ?_,
    fun {i} hi hi' => ?_⟩
  · have ht := Reaches.lt h.to_reflTransGen ha hi'
    exact hsilent i (Finset.mem_range.mpr hi') t (Finset.mem_range.mpr ht) hi h
  · have ht := Reaches.lt h ha hi'
    exact hkind i (Finset.mem_range.mpr hi') t (Finset.mem_range.mpr ht) hi h k
      (Option.mem_toFinset.mpr hk)
  · obtain ⟨m, rfl⟩ := Nat.exists_eq_add_of_lt hn
    rw [Nat.zero_add, Function.iterate_succ_apply']
    exact (widens_iterate start a m).ascending hi hi'

/-- **Sweeping comes to an end.** -/
theorem exists_sweepsTo (ha : a.InRange) (start : Nat) : ∃ b, SweepsTo start a b := by
  obtain ⟨n, hn⟩ := Filter.eventually_atTop.mp (eventually_saturates ha start)
  refine ⟨(sweep start)^[n] a, ⟨n, rfl⟩, ?_⟩
  rw [← Function.iterate_succ_apply' (sweep start)]
  exact (hn (n + 1) (Nat.le_succ n)).unique (hn n le_rfl)

/-- **Where sweeping ends**, dropping useless states gives the closed automaton. -/
theorem SweepsTo.trim_eq (ha : a.InRange) (h : SweepsTo start a b) :
    b.trim start = a.closeFrom start := by
  obtain ⟨⟨n, rfl⟩, hstable⟩ := h
  obtain ⟨m, hm⟩ := Filter.eventually_atTop.mp (eventually_saturates ha start)
  have hsat := hm (m + n) (Nat.le_add_right m n)
  rw [Function.iterate_add_apply, Function.iterate_fixed hstable] at hsat
  exact hsat.trim_eq ha

/-! ## Closing again -/

/-- **Settled automata**: in the epsilon sets are useful states only, a state is in its own set when it
has moves, and what leads on through a member leads nowhere else. -/
structure Settled (b : Automaton) : Prop where
  ascending : ∀ {i}, i < b.size → (b.state i).epsilon.Pairwise (· < ·)
  self : ∀ {i}, i < b.size → (b.Silent i i ↔ (b.state i).hasMoves)
  useful : ∀ {i t}, b.Silent i t → (b.state t).isUseful
  trans : ∀ {i t u}, b.Silent i t → b.Silent t u → u ≠ i → b.Silent i u
  kind : ∀ {i t k}, b.Silent i t → (b.state t).kind = some k → ∃ j ≤ k, (b.state i).kind = some j

namespace Settled

/-- In a settled automaton, epsilon moves in a row are one epsilon move. -/
lemma silent_of_reaches (h : b.Settled) (hit : b.Reaches i t) (hne : t ≠ i) : b.Silent i t := by
  induction hit with
  | refl => exact absurd rfl hne
  | @tail u t _ hut ih =>
    by_cases hui : u = i
    · exact hui ▸ hut
    · exact h.trans (ih hui) hut hne

/-- In a settled automaton, the kind of a state is not above those that it reaches. -/
lemma kind_of_reaches (h : b.Settled) {k : Nat} (hit : b.Reaches i t)
    (hk : (b.state t).kind = some k) : ∃ j ≤ k, (b.state i).kind = some j := by
  by_cases hti : t = i
  · exact ⟨k, le_rfl, hti ▸ hk⟩
  · exact h.kind (h.silent_of_reaches hit hti) hk

/-- **Closing a settled automaton changes nothing.**

**Proof sketch.** A state other than itself that can be reached is a member already; and a state is in
its own set just if it has moves. So the closed epsilon set has the same members, and the lowest kind is
the one that the state has. -/
theorem close_eq (h : b.Settled) (hr : b.InRange) : b.close = b := by
  refine ext_state (size_close b) fun i hi => ?_
  rw [size_close] at hi
  rw [state_close hi]
  have hepsilon : (b.closed i (b.state i)).epsilon = (b.state i).epsilon := by
    refine (ascending_sortedSet _).eq_of_mem_iff (h.ascending hi) fun t => ?_
    refine (mem_epsilon_closed hr).trans ⟨?_, fun hit => ?_⟩
    · rintro (⟨rfl, hm⟩ | ⟨hne, -, hit⟩)
      · exact (h.self hi).mpr hm
      · exact h.silent_of_reaches hit hne
    · by_cases hti : t = i
      · subst hti
        exact Or.inl ⟨rfl, (h.self hi).mp hit⟩
      · exact Or.inr ⟨hti, h.useful hit, .single hit⟩
  have hkind : (b.closed i (b.state i)).kind = (b.state i).kind := by
    refine (lowestKind_closed hr).unique (lowestKind_single _) ?_ fun k hk => ⟨k, le_rfl, i, .refl, hk⟩
    rintro k ⟨t, hit, hk⟩
    exact h.kind_of_reaches hit hk
  calc b.closed i (b.state i)
      = { b.state i with
          epsilon := (b.closed i (b.state i)).epsilon
          kind := (b.closed i (b.state i)).kind } := rfl
    _ = b.state i := by rw [hepsilon, hkind]

end Settled

/-- **The epsilon moves of a state that has been closed.** -/
lemma silent_closeFrom (ha : a.InRange) (hi : start ≤ i) (hi' : i < a.size) :
    (a.closeFrom start).Silent i t ↔
      (t = i ∧ (a.state i).hasMoves) ∨ (t ≠ i ∧ (a.state t).isUseful ∧ a.Reaches i t) := by
  rw [Silent, state_closeFrom_of_le hi hi', mem_epsilon_closed ha]

/-- What a closed automaton leads to. -/
lemma silent_close (ha : a.InRange) (hi : i < a.size) : a.close.Silent i t ↔
    (t = i ∧ (a.state i).hasMoves) ∨ (t ≠ i ∧ (a.state t).isUseful ∧ a.Reaches i t) :=
  silent_closeFrom ha (Nat.zero_le i) hi

/-- Only states of the automaton have epsilon moves. -/
lemma lt_size_of_silent (h : a.Silent i t) : i < a.size := by
  by_contra hge
  rw [Silent, state_of_size_le (not_lt.mp hge)] at h
  exact List.not_mem_nil h

/-- Closing changes no moves. -/
lemma hasMoves_closeFrom (a : Automaton) (start i : Nat) :
    ((a.closeFrom start).state i).hasMoves = (a.state i).hasMoves := by
  rw [State.hasMoves, closeFrom_moves]
  rfl

/-- Closing makes no state useful, and no state useless. -/
lemma isUseful_closeFrom (a : Automaton) (start i : Nat) :
    ((a.closeFrom start).state i).isUseful = (a.state i).isUseful := by
  rw [State.isUseful, hasMoves_closeFrom, closeFrom_isFinal]
  rfl

/-- **A closed automaton is settled**, although states between others may have been dropped: what
epsilon moves reach through a dropped state is in the epsilon set without it.

**Proof sketch.** A member of a closed set is useful. What can be reached from a member can be reached
from the state, and it is useful if the member leads to it; so it is a member as well. -/
theorem settled_close (ha : a.InRange) : a.close.Settled := by
  have hlt : ∀ {i t}, a.close.Silent i t → i < a.size := fun hit =>
    size_close a ▸ lt_size_of_silent hit
  have hreach : ∀ {i t}, a.close.Silent i t → a.Reaches i t := fun hit => by
    have hi := hlt hit
    rw [Silent, state_close hi] at hit
    exact reaches_of_mem_closed ha hit
  have huseful : ∀ {i t}, a.close.Silent i t → (a.state t).isUseful := fun hit => by
    rcases (silent_close ha (hlt hit)).mp hit with ⟨rfl, hm⟩ | ⟨-, hu, -⟩
    · simp [State.isUseful, hm]
    · exact hu
  refine ⟨fun {i} hi => ?_, fun {i} hi => ?_, fun {i t} hit => ?_, fun {i t u} hit htu hne => ?_,
    fun {i t k} hit hk => ?_⟩
  · rw [size_close] at hi
    rw [state_close hi]
    exact ascending_sortedSet _
  · rw [size_close] at hi
    rw [silent_close ha hi, close, hasMoves_closeFrom]
    simp
  · rw [close, isUseful_closeFrom]
    exact huseful hit
  · exact (silent_close ha (hlt hit)).mpr (Or.inr ⟨hne, huseful htu, (hreach hit).trans (hreach htu)⟩)
  · have hlow := lowestKind_closed ha (i := t)
    rw [← state_close ((hreach hit).lt ha (hlt hit)), hk] at hlow
    obtain ⟨⟨u, htu, hk⟩, -⟩ := hlow
    rw [state_close (hlt hit)]
    exact (lowestKind_closed ha).le ⟨u, (hreach hit).trans htu, hk⟩

/-- **Closing is exact.** Closing an automaton whose moves lead to states that it has gives a result.
In its epsilon sets are just the other useful states that epsilon moves of the automaton reach, and the
state itself if it has moves; its kinds are the lowest ones that epsilon moves reach; nothing else is
different. Closing it again changes nothing. Closing in place by sweeps comes to an end, always with
this result.

**Proof sketch.** The closed automaton is read off state by state: an epsilon set has what the search
from the state finds (`silent_close`), and the kind is the lowest one found (`lowestKind_closed`). It is
settled (`settled_close`), so that closing again changes nothing; and sweeps saturate it, after which
dropping useless states gives the same sets (`trim_eq`). -/
theorem closures_exact (a : Automaton) (ha : a.InRange) :
    ∃ b, a.closures false = .ok b ∧ b.size = a.size ∧
      (∀ i < a.size,
        (∀ t, t ∈ (b.state i).epsilon ↔
          (t ≠ i ∧ a.Reaches i t ∧ (a.state t).isUseful) ∨ (t = i ∧ (a.state i).hasMoves)) ∧
        (b.state i).epsilon.Pairwise (· < ·) ∧
        LowestKind (fun k => ∃ t, a.Reaches i t ∧ (a.state t).kind = some k) (b.state i).kind ∧
        (b.state i).moves = (a.state i).moves ∧ (b.state i).next = (a.state i).next ∧
        (b.state i).isFinal = (a.state i).isFinal) ∧
      b.closures false = .ok b ∧
      (∃ c, SweepsTo 0 a c) ∧ ∀ c, SweepsTo 0 a c → c.trim 0 = b := by
  have hsettled := settled_close ha
  refine ⟨a.close, rfl, size_close a, fun i hi => ?_, ?_, exists_sweepsTo ha 0,
    fun c hc => hc.trim_eq ha⟩
  · refine ⟨fun t => (silent_close ha hi).trans ?_, hsettled.ascending (by simpa using hi), ?_,
      closeFrom_moves a 0 i, closeFrom_next a 0 i, closeFrom_isFinal a 0 i⟩
    · tauto
    · rw [state_close hi]
      exact lowestKind_closed ha
  · exact congrArg Except.ok (hsettled.close_eq (ha.closeFrom 0))

/-- Three states in a ring of epsilon moves, one of which neither moves nor accepts, and one that leads
to itself and out of the ring. -/
def ringWithExit : Automaton where
  states := #[
    { epsilon := [2] },
    { epsilon := [0], isFinal := true, kind := some 3 },
    { epsilon := [1, 2, 3], moves := { ascii := BitVec.twoPow 128 97 }, next := some 0 },
    { epsilon := [4] },
    { isFinal := true, kind := some 1 }]

/-- A ring of epsilon moves with an exit is closed exactly, closing it again changes nothing, and
sweeping in place leads to the same automaton. -/
theorem closures_exact_ringWithExit : ringWithExit.InRange ∧
    ∃ b, ringWithExit.closures false = .ok b ∧ b.size = ringWithExit.size ∧
      (∀ i < ringWithExit.size,
        (∀ t, t ∈ (b.state i).epsilon ↔
          (t ≠ i ∧ ringWithExit.Reaches i t ∧ (ringWithExit.state t).isUseful) ∨
            (t = i ∧ (ringWithExit.state i).hasMoves)) ∧
        (b.state i).epsilon.Pairwise (· < ·) ∧
        LowestKind (fun k => ∃ t, ringWithExit.Reaches i t ∧ (ringWithExit.state t).kind = some k)
          (b.state i).kind ∧
        (b.state i).moves = (ringWithExit.state i).moves ∧
        (b.state i).next = (ringWithExit.state i).next ∧
        (b.state i).isFinal = (ringWithExit.state i).isFinal) ∧
      b.closures false = .ok b ∧
      (∃ c, SweepsTo 0 ringWithExit c) ∧ ∀ c, SweepsTo 0 ringWithExit c → c.trim 0 = b := by
  have hrange : ringWithExit.InRange := by decide
  exact ⟨hrange, closures_exact ringWithExit hrange⟩

end Automaton

end GrammarForge
