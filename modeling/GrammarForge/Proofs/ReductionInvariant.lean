import GrammarForge.Automaton.Reduction
import GrammarForge.Proofs.AutomatonRun

set_option autoImplicit false

/-!
# The invariant of a reduction

While an automaton is reduced, each of its states stands for states of the automaton before:
an old state for itself, a merged state for those that were merged into it, and the new next
state of a merged one for all the next states that it leads to.

## Main definitions

* `Meaning` — what each state stands for, and which states moves lead to.
* `Reduced` — the invariant: every state does what the states that it stands for do.

## Main results

* `Reduced.initial` — a closed automaton has the invariant.
* `Reduced.simulates` — with the invariant, closing the new states gives an automaton that
  simulates the old one.
-/

namespace GrammarForge

open Automaton

/-! ## What merged states stand for -/

/-- What the states of an automaton under reduction mean: the old states that each one stands
for, and whether it is a place that a move can lead to. -/
structure Meaning where
  stands : Nat → Nat → Prop
  place : Nat → Prop

/-- Before the reduction every state stands for itself. -/
def Meaning.initial (a : Automaton) : Meaning := ⟨fun i o => o = i, fun i => i < a.size⟩

/-- **The invariant of a reduction** of the closed automaton `a`, which has become `r`. The old
states keep their moves and kinds. Epsilon moves, moves and kinds of every state are covered by
those of the old states that it stands for; conversely the closure of an old state still leads
wherever it led before, and epsilon moves lead from a new place to what it stands for. -/
structure Reduced (a r : Automaton) (μ : Meaning) : Prop where
  inRange : r.InRange
  size_le : a.size ≤ r.size
  moves_old : ∀ {i}, i < a.size → (r.state i).moves = (a.state i).moves
  next_old : ∀ {i}, i < a.size → (r.state i).next = (a.state i).next
  kind_old : ∀ {i}, i < a.size → (r.state i).kind = (a.state i).kind
  stands_old : ∀ {i o}, i < a.size → (μ.stands i o ↔ o = i)
  place_old : ∀ {i}, i < a.size → μ.place i
  place_lt : ∀ {y}, μ.place y → y < r.size
  silent : ∀ {y z o}, r.Silent y z → μ.stands z o → ∃ x, μ.stands y x ∧ a.Below x o
  moves : ∀ {y c m o}, (r.state y).moves.has c → (r.state y).next = some m → μ.stands m o →
    ∃ x, μ.stands y x ∧ (a.state x).moves.has c ∧ (a.state x).next = some o
  kind : ∀ {y k}, (r.state y).kind = some k →
    ∃ x, μ.stands y x ∧ ∃ j ≤ k, (a.state x).kind = some j
  place_next : ∀ {y m}, (r.state y).next = some m → μ.place m
  complete : ∀ {s c o}, s < a.size → a.Goes MoveTable.has s c o → ∃ m, r.Goes MoveTable.has s c m ∧ μ.stands m o
  place_new : ∀ {y o}, a.size ≤ y → μ.place y → μ.stands y o →
    ∃ z < y, r.Silent y z ∧ μ.place z ∧ μ.stands z o

namespace Reduced

variable {a r : Automaton} {μ : Meaning}

/-- A closed automaton that has not been changed.

**Proof sketch.** Every state stands for itself, so that each condition is one of the closed automaton.
-/
lemma initial (h : a.Closed) : Reduced a a (Meaning.initial a) where
  inRange := h.toInRange
  size_le := le_rfl
  moves_old _ := rfl
  next_old _ := rfl
  kind_old _ := rfl
  stands_old _ := Iff.rfl
  place_old hi := hi
  place_lt hy := hy
  silent := by
    rintro y z o hyz rfl
    exact ⟨y, rfl, h.below hyz⟩
  moves := by
    rintro y c m o hc hm rfl
    exact ⟨y, rfl, hc, hm⟩
  kind hk := ⟨_, rfl, _, le_rfl, hk⟩
  place_next hm := h.next _ _ hm
  complete _ hgo := ⟨_, hgo, rfl⟩
  place_new hle hy := absurd hy (Nat.not_lt.mpr hle)

/-- Along epsilon moves, what is stood for stays covered. -/
lemma reaches (h : Reduced a r μ) {y z o : Nat} (hp : r.Reaches y z) :
    μ.stands z o → ∃ x, μ.stands y x ∧ a.Below x o := by
  induction hp generalizing o with
  | refl => exact fun ho => ⟨o, ho, Below.refl a o⟩
  | tail _ hstep ih =>
    intro ho
    obtain ⟨x, hx, hxo⟩ := h.silent hstep ho
    obtain ⟨x', hx', hx'x⟩ := ih hx
    exact ⟨x', hx', hx'x.trans hxo⟩

/-- Epsilon moves lead from a place to the old states that it stands for. -/
lemma reaches_stands (h : Reduced a r μ) (y : Nat) : ∀ {o}, μ.place y → μ.stands y o →
    o < a.size ∧ r.Reaches y o := by
  induction y using Nat.strong_induction_on with
  | _ y ih =>
    intro o hy ho
    rcases Nat.lt_or_ge y a.size with hlt | hge
    · obtain rfl := (h.stands_old hlt).mp ho
      exact ⟨hlt, .refl⟩
    · obtain ⟨z, hzy, hsil, hz, hzo⟩ := h.place_new hge hy ho
      obtain ⟨ho', hp⟩ := ih z hzy hz hzo
      exact ⟨ho', .head hsil hp⟩

/-- After the new states have been closed, a closure moves where states move that epsilon moves
reach. -/
lemma goes_closeFrom (h : Reduced a r μ) {m n : Nat} {c : Char}
    (hgo : (r.closeFrom a.size).Goes MoveTable.has m c n) :
    ∃ t, r.Reaches m t ∧ (r.state t).moves.has c ∧ (r.state t).next = some n := by
  obtain ⟨t, ht, hc, hn⟩ := hgo
  rw [closeFrom_moves] at hc
  rw [closeFrom_next] at hn
  refine ⟨t, ?_, hc, hn⟩
  rcases r.state_closeFrom a.size m with heq | ⟨-, -, heq⟩
  · rw [heq] at ht
    exact .single ht
  · rw [heq] at ht
    exact reaches_of_mem_closed h.inRange ht

/-- The closure of a place leads wherever the closures of what it stands for lead. -/
lemma goes_of_stands (h : Reduced a r μ) {m x o : Nat} {c : Char} (hm : μ.place m)
    (hx : μ.stands m x) (hgo : a.Goes MoveTable.has x c o) :
    ∃ n, (r.closeFrom a.size).Goes MoveTable.has m c n ∧ μ.stands n o := by
  obtain ⟨hxa, hp⟩ := h.reaches_stands m hm hx
  obtain ⟨n, ⟨t, ht, hc, hn⟩, hno⟩ := h.complete hxa hgo
  refine ⟨n, ⟨t, ?_, by rwa [closeFrom_moves], by rwa [closeFrom_next]⟩, hno⟩
  rcases Nat.lt_or_ge m a.size with hlt | hge
  · obtain rfl := (h.stands_old hlt).mp hx
    rwa [state_closeFrom_of_lt hlt]
  · rw [state_closeFrom_of_le hge (h.place_lt hm)]
    exact mem_closed_of_reaches h.inRange (hp.tail ht) (hasMoves_of_has hc)

/-- After closing, a place has the lowest kind of what it stands for.

**Proof sketch.** An old state keeps its kind. In the closure of a new one, epsilon moves lead to all
that the place stands for; and each kind met on the way is above one of a state that the place stands
for, since what is stood for stays covered along epsilon moves. -/
lemma lowestKind_place (h : Reduced a r μ) {m : Nat} (hm : μ.place m) :
    LowestKind (fun k => ∃ o, μ.stands m o ∧ (a.state o).kind = some k)
      ((r.closeFrom a.size).state m).kind := by
  rcases Nat.lt_or_ge m a.size with hlt | hge
  · rw [state_closeFrom_of_lt hlt, h.kind_old hlt]
    exact (lowestKind_single _).congr fun k => by simp [h.stands_old hlt]
  · rw [state_closeFrom_of_le hge (h.place_lt hm)]
    refine (lowestKind_closed h.inRange).of_cofinal ?_ ?_
    · rintro k ⟨o, ho, hk⟩
      obtain ⟨hoa, hp⟩ := h.reaches_stands m hm ho
      exact ⟨o, hp, by rwa [h.kind_old hoa]⟩
    · rintro k ⟨t, hp, hk⟩
      obtain ⟨x, hx, j, hjk, hj⟩ := h.kind hk
      obtain ⟨x', hx', hbelow⟩ := h.reaches hp hx
      obtain ⟨i, hij, hi⟩ := hbelow.kind hj
      exact ⟨i, hij.trans hjk, x', hx', hi⟩

/-- **A reduced automaton simulates the closed one**, once its new states have been closed.

**Proof sketch.** A closure of the reduced automaton moves where states move that epsilon moves reach;
the old states that these stand for are covered by those that the place itself stands for. Conversely
epsilon moves lead from a place to all that it stands for. -/
theorem simulates (ha : a.Closed) (h : Reduced a r μ) :
    Simulates a (r.closeFrom a.size) μ.stands μ.place where
  place_of_goes := by
    intro m c n hm hgo
    obtain ⟨t, -, -, hn⟩ := h.goes_closeFrom hgo
    exact h.place_next hn
  kind := h.lowestKind_place
  sound := by
    intro m c n o hm hgo ho
    obtain ⟨t, hp, hc, hn⟩ := h.goes_closeFrom hgo
    obtain ⟨x, hx, hxc, hxo⟩ := h.moves hc hn ho
    obtain ⟨x', hx', hbelow⟩ := h.reaches hp hx
    exact ⟨x', hx', hbelow.goes ⟨x, ha.self (hasMoves_of_has hxc), hxc, hxo⟩⟩
  complete := h.goes_of_stands

end Reduced

end GrammarForge
