import GrammarForge.Proofs.EpsilonClosure

set_option autoImplicit false

/-!
# Runs of a closed automaton

A closed automaton is run with a set of active states. Reading a character lands in the next
states of those that move on it; the kind accepted is the lowest one of a state landed in, and
the epsilon sets of these states become active. Whether a state moves on a character is asked of its
table: `MoveTable.canMove` searches it as a scanner does, and `MoveTable.has` takes all that it holds,
in whatever order. On tables in order the two runs are the same.

Two automata accept the same kinds if each state that the second one can land in stands for
states of the first one, and does what these do together.

## Main definitions

* `Automaton.landings`, `Automaton.step` — reading one character.
* `Automaton.acceptedKinds` — the kinds accepted along a text.
* `Automaton.Goes` — a state's closure moves on a character to another state.
* `Automaton.Below` — one closure does all that another one does.
* `Automaton.Closed` — automata whose epsilon sets are closures.
* `Simulates` — each landing place of one automaton stands for states of another.

## Main results

* `Automaton.step_spec` — what one step accepts and makes active.
* `Automaton.acceptedKinds_canMove` — on tables in order a search finds what the tables hold.
* `Automaton.closed_close` — closing makes an automaton closed.
* `Simulates.acceptedKinds_eq` — a simulated automaton accepts the same kinds.
-/

namespace GrammarForge

namespace Automaton

/-- The states that the active ones lead to on `c`, where `asks` asks a table for a character. -/
def landings (a : Automaton) (asks : MoveTable → Char → Bool) (active : List Nat) (c : Char) :
    List Nat :=
  (active.filter fun t => asks (a.state t).moves c).filterMap fun t => (a.state t).next

/-- Reads `c`: the lowest kind of a state landed in, and the states active afterwards. -/
def step (a : Automaton) (asks : MoveTable → Char → Bool) (active : List Nat) (c : Char) :
    Option Nat × List Nat :=
  ((a.landings asks active c).foldl (fun k n => leastKind k (a.state n).kind) none,
    sortedSet compare ((a.landings asks active c).flatMap fun n => (a.state n).epsilon))

/-- The kinds accepted after each character of a text. -/
def acceptedKinds (a : Automaton) (asks : MoveTable → Char → Bool) :
    List Nat → List Char → List (Option Nat)
  | _, [] => []
  | active, c :: cs =>
    (a.step asks active c).1 :: a.acceptedKinds asks (a.step asks active c).2 cs

/-- A state active together with `i` leads to `n` on `c`. -/
def Goes (a : Automaton) (asks : MoveTable → Char → Bool) (i : Nat) (c : Char) (n : Nat) : Prop :=
  ∃ t ∈ (a.state i).epsilon, asks (a.state t).moves c ∧ (a.state t).next = some n

variable {a b : Automaton} {asks : MoveTable → Char → Bool}

/-- A landing place is the next state of an active state that moves. -/
lemma mem_landings {active : List Nat} {c : Char} {n : Nat} :
    n ∈ a.landings asks active c ↔
      ∃ t ∈ active, asks (a.state t).moves c ∧ (a.state t).next = some n := by
  simp [landings, and_assoc]

/-- Two ways of asking that agree on all tables of an automaton give the same runs. -/
lemma acceptedKinds_congr {asks' : MoveTable → Char → Bool}
    (h : ∀ i c, asks (a.state i).moves c = asks' (a.state i).moves c) (text : List Char) :
    ∀ active, a.acceptedKinds asks active text = a.acceptedKinds asks' active text := by
  have hstep : ∀ active c, a.step asks active c = a.step asks' active c := by
    intro active c
    simp only [step, landings, h]
  induction text with
  | nil => exact fun active => rfl
  | cons c cs ih =>
    intro active
    rw [acceptedKinds, acceptedKinds, hstep, ih]

/-- **On tables in order a run by searching** is the run by all that the tables hold. -/
lemma acceptedKinds_canMove (h : ∀ i, (a.state i).moves.InOrder) (text : List Char)
    (active : List Nat) :
    a.acceptedKinds MoveTable.canMove active text = a.acceptedKinds MoveTable.has active text :=
  acceptedKinds_congr (fun i c => (h i).canMove_eq_has c) text active

/-- The active states `active` are those of the closures of `places`. -/
def ActiveFrom (a : Automaton) (places active : List Nat) : Prop :=
  ∀ t, t ∈ active ↔ ∃ m ∈ places, t ∈ (a.state m).epsilon

/-- The closure of one state. -/
lemma activeFrom_single (a : Automaton) (i : Nat) : a.ActiveFrom [i] (a.state i).epsilon := by
  intro t
  simp

/-- The landing places are those that the closures of `places` lead to. -/
lemma ActiveFrom.mem_landings {places active : List Nat} {c : Char} {n : Nat}
    (h : a.ActiveFrom places active) :
    n ∈ a.landings asks active c ↔ ∃ m ∈ places, a.Goes asks m c n := by
  rw [Automaton.mem_landings]
  constructor
  · rintro ⟨t, ht, hc, hn⟩
    obtain ⟨m, hm, hmt⟩ := (h t).mp ht
    exact ⟨m, hm, t, hmt, hc, hn⟩
  · rintro ⟨m, hm, t, hmt, hc, hn⟩
    exact ⟨t, (h t).mpr ⟨m, hm, hmt⟩, hc, hn⟩

/-- **One step of a run**: the kind accepted is the lowest one of a state landed in, and the
states active afterwards are those of the closures of these. -/
lemma step_spec (a : Automaton) (asks : MoveTable → Char → Bool) (active : List Nat) (c : Char) :
    LowestKind (fun k => ∃ n ∈ a.landings asks active c, (a.state n).kind = some k)
        (a.step asks active c).1 ∧
      a.ActiveFrom (a.landings asks active c) (a.step asks active c).2 := by
  constructor
  · exact (lowestKind_foldl (fun n => (a.state n).kind) _ (lowestKind_single none)).congr
      fun k => by simp
  · intro t
    rw [step, mem_sortedSet, List.mem_flatMap]

/-! ## Closed automata -/

/-- Whatever the closure of `o` does, the closure of `x` does too, and it accepts nothing
higher. -/
structure Below (a : Automaton) (x o : Nat) : Prop where
  goes : ∀ {c n}, a.Goes MoveTable.has o c n → a.Goes MoveTable.has x c n
  kind : ∀ {k}, (a.state o).kind = some k → ∃ j ≤ k, (a.state x).kind = some j

/-- A closure does what it does itself. -/
lemma Below.refl (a : Automaton) (x : Nat) : a.Below x x := ⟨id, fun h => ⟨_, le_rfl, h⟩⟩

/-- What one closure does by way of a second one. -/
lemma Below.trans {a : Automaton} {x y z : Nat} (h₁ : a.Below x y) (h₂ : a.Below y z) :
    a.Below x z where
  goes h := h₁.goes (h₂.goes h)
  kind h := by
    obtain ⟨j, hj, h⟩ := h₂.kind h
    obtain ⟨i, hi, h⟩ := h₁.kind h
    exact ⟨i, hi.trans hj, h⟩

/-- An automaton whose epsilon sets are closures. -/
structure Closed (a : Automaton) : Prop extends InRange a where
  self : ∀ {i}, (a.state i).hasMoves → i ∈ (a.state i).epsilon
  below : ∀ {i j}, a.Silent i j → a.Below i j

/-- A state whose table holds a character has moves. -/
lemma hasMoves_of_has {s : State} {c : Char} (h : s.moves.has c) : s.hasMoves := by
  rw [State.hasMoves, MoveTable.isEmpty_eq_false_of_has h, Bool.not_false]

/-- A state that moves on a character has moves. -/
lemma hasMoves_of_canMove {s : State} {c : Char} (h : s.moves.canMove c) : s.hasMoves := by
  rw [State.hasMoves, MoveTable.isEmpty_eq_false_of_canMove h, Bool.not_false]

/-- A new state has no moves. -/
lemma hasMoves_empty : ({} : State).hasMoves = false := by decide

/-- **Closing makes an automaton closed.**

**Proof sketch.** What epsilon moves reach from a state in a closure they reach from the state
that is closed; so its own closure lies in the other one, and its kinds are among those met. -/
theorem closed_close (h : a.InRange) : a.close.Closed where
  toInRange := h.closeFrom 0
  self := by
    intro i hm
    rcases Nat.lt_or_ge i a.size with hi | hi
    · rw [State.hasMoves, close, closeFrom_moves] at hm
      rw [state_close hi]
      exact mem_closed_of_reaches h .refl hm
    · rw [state_of_size_le (a := a.close) (by simpa using hi), hasMoves_empty] at hm
      exact absurd hm (by simp)
  below := by
    intro i j hij
    have hi : i < a.size := by
      by_contra hi
      rw [Silent, state_of_size_le (a := a.close) (by simpa using hi)] at hij
      simp at hij
    rw [Silent, state_close hi] at hij
    have hreach := reaches_of_mem_closed h hij
    have hj := hreach.lt h hi
    constructor
    · rintro c n ⟨t, ht, hc, hn⟩
      rw [state_close hj] at ht
      have ht' := reaches_of_mem_closed h ht
      refine ⟨t, ?_, hc, hn⟩
      rw [close, closeFrom_moves] at hc
      rw [state_close hi]
      exact mem_closed_of_reaches h (hreach.trans ht') (hasMoves_of_has hc)
    · intro k hk
      have hlow := lowestKind_closed (i := j) h
      rw [state_close hj] at hk
      rw [hk] at hlow
      obtain ⟨⟨t, ht, hkt⟩, -⟩ := hlow
      have hlow' := lowestKind_closed (i := i) h
      rw [state_close hi]
      cases hki : (a.closed i (a.state i)).kind with
      | none => rw [hki] at hlow'; exact absurd ⟨t, hreach.trans ht, hkt⟩ (hlow' k)
      | some l => rw [hki] at hlow'; exact ⟨l, hlow'.2 k ⟨t, hreach.trans ht, hkt⟩, rfl⟩

end Automaton

open Automaton

/-! ## Simulation -/

/-- **Simulation.** Every state `m` of `b` that is a place to land in stands for states of `a`:
it has the lowest of their kinds, and its closure leads on every character to places that stand
for exactly the states that the closures of those lead to. -/
structure Simulates (a b : Automaton) (stands : Nat → Nat → Prop) (place : Nat → Prop) : Prop where
  place_of_goes : ∀ {m c n}, place m → b.Goes MoveTable.has m c n → place n
  kind : ∀ {m}, place m →
    LowestKind (fun k => ∃ o, stands m o ∧ (a.state o).kind = some k) (b.state m).kind
  sound : ∀ {m c n o}, place m → b.Goes MoveTable.has m c n → stands n o → ∃ x, stands m x ∧ a.Goes MoveTable.has x c o
  complete : ∀ {m c x o}, place m → stands m x → a.Goes MoveTable.has x c o → ∃ n, b.Goes MoveTable.has m c n ∧ stands n o

namespace Simulates

variable {a b : Automaton} {stands : Nat → Nat → Prop} {place : Nat → Prop}

/-- A simulated automaton lands in the states that the landing places of the other one stand for. -/
lemma mem_landings (h : Simulates a b stands place) {ms os as bs : List Nat} {c : Char}
    (hms : ∀ m ∈ ms, place m) (hstands : ∀ o, o ∈ os ↔ ∃ m ∈ ms, stands m o)
    (has : a.ActiveFrom os as) (hbs : b.ActiveFrom ms bs) (o : Nat) :
    o ∈ a.landings MoveTable.has as c ↔ ∃ n ∈ b.landings MoveTable.has bs c, stands n o := by
  simp only [has.mem_landings, hbs.mem_landings]
  constructor
  · rintro ⟨x, hx, hgo⟩
    obtain ⟨m, hm, hmx⟩ := (hstands x).mp hx
    obtain ⟨n, hgo', hno⟩ := h.complete (hms m hm) hmx hgo
    exact ⟨n, ⟨m, hm, hgo'⟩, hno⟩
  · rintro ⟨n, ⟨m, hm, hgo⟩, hno⟩
    obtain ⟨x, hmx, hgo'⟩ := h.sound (hms m hm) hgo hno
    exact ⟨x, (hstands x).mpr ⟨m, hm, hmx⟩, hgo'⟩

/-- **A simulated automaton accepts the same kinds**, from the closures of any places and of the
states that these stand for.

**Proof sketch.** Induction on the text. After one character the landing places stand for the
states that the simulated automaton lands in, so the lowest kinds are equal and the closures
are again related. -/
theorem acceptedKinds_eq (h : Simulates a b stands place) (text : List Char) :
    ∀ {ms os as bs : List Nat}, (∀ m ∈ ms, place m) → (∀ o, o ∈ os ↔ ∃ m ∈ ms, stands m o) →
      a.ActiveFrom os as → b.ActiveFrom ms bs →
      b.acceptedKinds MoveTable.has bs text = a.acceptedKinds MoveTable.has as text := by
  induction text with
  | nil => intros; rfl
  | cons c cs ih =>
    intro ms os as bs hms hstands has hbs
    have hland := h.mem_landings (c := c) hms hstands has hbs
    have hplace : ∀ n ∈ b.landings MoveTable.has bs c, place n := by
      intro n hn
      obtain ⟨m, hm, hgo⟩ := hbs.mem_landings.mp hn
      exact h.place_of_goes (hms m hm) hgo
    obtain ⟨hka, hnexta⟩ := a.step_spec MoveTable.has as c
    obtain ⟨hkb, hnextb⟩ := b.step_spec MoveTable.has bs c
    rw [acceptedKinds, acceptedKinds, ih hplace hland hnexta hnextb]
    congr 1
    refine hkb.unique hka ?_ ?_
    · rintro k ⟨n, hn, hk⟩
      have hlow := h.kind (hplace n hn)
      rw [hk] at hlow
      obtain ⟨⟨o, hno, ho⟩, -⟩ := hlow
      exact ⟨k, le_rfl, o, (hland o).mpr ⟨n, hn, hno⟩, ho⟩
    · rintro k ⟨o, ho, hk⟩
      obtain ⟨n, hn, hno⟩ := (hland o).mp ho
      have hlow := h.kind (hplace n hn)
      cases hkn : (b.state n).kind with
      | none => rw [hkn] at hlow; exact absurd ⟨o, hno, hk⟩ (hlow k)
      | some j => rw [hkn] at hlow; exact ⟨j, hlow.2 k ⟨o, hno, hk⟩, n, hn, hkn⟩

end Simulates

end GrammarForge
