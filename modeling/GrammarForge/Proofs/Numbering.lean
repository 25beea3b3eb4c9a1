import GrammarForge.LexicalState
import GrammarForge.Proofs.AutomatonRun

set_option autoImplicit false

/-!
# Numbered automata

Numbering gives every state that can become active and has moves a number, and states that share a
number do the same. So a scan mode made from a numbered automaton accepts the same kinds as the
automaton, with the numbers of its active states.

## Main definitions

* `Numbering.numberOf` — the number of a state.
* `Numbered` — the invariant of giving out numbers.
* `Numbering.NextIs` — the set of states that become active after a numbered one.
* `Mirrors` — a scan mode does with numbers what an automaton does with states.

## Main results

* `intern_spec` — what adding to a list of distinct elements does.
* `mirrors_number` — the scan mode of a numbered automaton mirrors it.
-/

namespace GrammarForge

open Automaton

/-! ## Adding to a list of distinct elements -/

section

variable {α : Type} [DecidableEq α]

/-- **Adding an element** finds its place or appends it, and keeps the others.

**Proof sketch.** By whether the element is found: then its place is given and nothing is appended, and
otherwise it is put behind the last one. -/
lemma intern_spec (xs : Array α) (x : α) :
    (intern xs x).2[(intern xs x).1]? = some x ∧
      (∀ {i : Nat} {y : α}, xs[i]? = some y → (intern xs x).2[i]? = some y) ∧
      (((intern xs x).1 < xs.size ∧ (intern xs x).2 = xs) ∨
        ((intern xs x).1 = xs.size ∧ (intern xs x).2 = xs.push x)) := by
  rw [intern]
  cases hfind : xs.findIdx? (· = x) with
  | some i =>
    obtain ⟨hi, hx, -⟩ := Array.findIdx?_eq_some_iff_getElem.mp hfind
    refine ⟨?_, fun h => h, Or.inl ⟨hi, rfl⟩⟩
    rw [Array.getElem?_eq_getElem hi, of_decide_eq_true hx]
  | none =>
    refine ⟨Array.getElem?_push_size, fun {i y} h => ?_, Or.inr ⟨rfl, rfl⟩⟩
    have hi : i < xs.size := by
      by_contra hge
      rw [Array.getElem?_eq_none (Nat.not_lt.mp hge)] at h
      cases h
    rw [Array.getElem?_push_lt hi, ← Array.getElem?_eq_getElem hi]
    exact h

end

/-! ## Giving out numbers -/

/-- The number of a state, if it has one. -/
def Numbering.numberOf (n : Numbering) (i : Nat) : Option Nat := n.number.getD i none

/-- The runtime state of a number. -/
def Numbering.runtimeState (n : Numbering) (k : Nat) : RuntimeState := n.runtime.getD k default

/-- **The invariant of giving out numbers** to the states of `done`: a state has the number of its
signature, and the runtime state of a number is made from a state with the signature. -/
structure Numbered (a : Automaton) (done : List Nat) (signatures : Array Signature)
    (n : Numbering) : Prop where
  size_eq : signatures.size = n.runtime.size
  number_size : n.number.size = a.size
  number : ∀ {i k}, n.numberOf i = some k → signatures[k]? = some (a.signature i)
  runtime : ∀ {k}, k < n.runtime.size →
    signatures[k]? = some (a.signature (n.runtimeState k).source) ∧
      (n.runtimeState k).kind = a.completedKind (n.runtimeState k).source
  nextSet : ∀ k, (n.runtimeState k).nextSet = none
  initial : n.initial = none
  done : ∀ i ∈ done, i < a.size → ∃ k, n.numberOf i = some k

variable {a : Automaton}

/-- Before any state has a number. -/
lemma numbered_empty (a : Automaton) :
    Numbered a [] #[] { number := Array.replicate a.size none } := by
  refine ⟨rfl, by simp, ?_, ?_, fun k => rfl, rfl, by simp⟩
  · intro i k h
    rw [Numbering.numberOf, Array.getD_eq_getD_getElem?, Array.getElem?_replicate] at h
    split_ifs at h <;> cases h
  · intro k hk
    exact absurd hk (Nat.not_lt_zero k)

/-- Numbers are those of runtime states. -/
lemma Numbered.lt_size {done : List Nat} {signatures : Array Signature} {n : Numbering}
    (h : Numbered a done signatures n) {i k : Nat} (hk : n.numberOf i = some k) :
    k < n.runtime.size := by
  rw [← h.size_eq]
  by_contra hge
  have hsig := h.number hk
  rw [Array.getElem?_eq_none (Nat.not_lt.mp hge)] at hsig
  cases hsig

/-- A state has the signature of the state that its runtime state is made from. -/
lemma Numbered.signature {done : List Nat} {signatures : Array Signature} {n : Numbering}
    (h : Numbered a done signatures n) {i k : Nat} (hk : n.numberOf i = some k) :
    a.signature (n.runtimeState k).source = a.signature i := by
  have hsig := h.number hk
  rw [(h.runtime (h.lt_size hk)).1] at hsig
  exact Option.some_inj.mp hsig

/-- One more state gets its number.

**Proof sketch.** A known signature has its number already; a new one is put behind the others, together
with a runtime state made of this state. In both cases the state gets the number of its signature, and
all earlier ones keep theirs. -/
lemma Numbered.step {done : List Nat} {signatures : Array Signature} {n : Numbering}
    (h : Numbered a done signatures n) (i : Nat) :
    Numbered a (i :: done) (a.numberState (signatures, n) i).1 (a.numberState (signatures, n) i).2 := by
  obtain ⟨hself, hkeep, hcases⟩ := intern_spec signatures (a.signature i)
  simp only [numberState]
  set k := (intern signatures (a.signature i)).1 with hk
  set signatures' := (intern signatures (a.signature i)).2 with hsigs
  set runtime' := if k < n.runtime.size then n.runtime
    else n.runtime.push { source := i, kind := a.completedKind i } with hruntime
  have hnumberOf : ∀ x, (n.number.setIfInBounds i (some k)).getD x none =
      if x = i ∧ i < a.size then some k else n.numberOf x := by
    intro x
    rw [getD_setIfInBounds_eq, h.number_size, Numbering.numberOf]
  -- the signature is known already, or it gets a runtime state
  have hnew : (runtime' = n.runtime ∧ signatures' = signatures) ∨ (k = n.runtime.size ∧
      runtime' = n.runtime.push { source := i, kind := a.completedKind i } ∧
      signatures' = signatures.push (a.signature i)) := by
    rw [h.size_eq] at hcases
    rcases hcases with ⟨hlt, heq⟩ | ⟨heq, heq'⟩
    · exact Or.inl ⟨if_pos hlt, heq⟩
    · exact Or.inr ⟨heq, if_neg (Nat.not_lt.mpr heq.ge), heq'⟩
  refine ⟨?_, by simpa using h.number_size, ?_, ?_, ?_, h.initial, ?_⟩
  · rcases hnew with ⟨hr, hs⟩ | ⟨-, hr, hs⟩
    · rw [hr, hs]
      exact h.size_eq
    · rw [hr, hs, Array.size_push, Array.size_push, h.size_eq]
  · intro x l hx
    rw [Numbering.numberOf, hnumberOf] at hx
    split_ifs at hx with hxi
    · rw [hxi.1, ← Option.some_inj.mp hx]
      exact hself
    · exact hkeep (h.number hx)
  · intro l hl
    simp only [Numbering.runtimeState] at hl ⊢
    rcases hnew with ⟨hr, hs⟩ | ⟨hkn, hr, -⟩
    · rw [hr] at hl ⊢
      rw [hs]
      exact h.runtime hl
    · rw [hr, Array.size_push] at hl
      rw [hr, getD_push]
      split_ifs with hln
      · rw [hln, ← hkn]
        exact ⟨hself, rfl⟩
      · obtain ⟨h₁, h₂⟩ := h.runtime (by omega : l < n.runtime.size)
        exact ⟨hkeep h₁, h₂⟩
  · intro l
    simp only [Numbering.runtimeState]
    rcases hnew with ⟨hr, -⟩ | ⟨-, hr, -⟩
    · rw [hr]
      exact h.nextSet l
    · rw [hr, getD_push]
      split_ifs
      · rfl
      · exact h.nextSet l
  · intro x hx hxa
    rw [Numbering.numberOf, hnumberOf]
    by_cases hxi : x = i
    · exact ⟨k, if_pos ⟨hxi, hxi ▸ hxa⟩⟩
    · rw [if_neg (fun hand => hxi hand.1)]
      exact h.done x ((List.mem_cons.mp hx).resolve_left hxi) hxa

/-- All states of a list get their numbers. -/
lemma Numbered.foldl (order : List Nat) : ∀ {done : List Nat} (acc : Array Signature × Numbering),
    Numbered a done acc.1 acc.2 → ∃ done', (∀ i, i ∈ done' ↔ i ∈ order ∨ i ∈ done) ∧
      Numbered a done' (order.foldl a.numberState acc).1 (order.foldl a.numberState acc).2 := by
  induction order with
  | nil => exact fun acc h => ⟨_, by simp, h⟩
  | cons i order ih =>
    intro done acc h
    obtain ⟨done', hdone', hrest⟩ := ih (a.numberState acc i) (h.step i)
    refine ⟨done', fun x => ?_, hrest⟩
    rw [hdone', List.mem_cons, List.mem_cons, or_left_comm, or_assoc]

/-! ## The sets of states that become active -/

/-- After a move out of the runtime state `k`, the states of `set` become active. -/
def Numbering.NextIs (n : Numbering) (k : Nat) (set : List Nat) : Prop :=
  ((n.runtimeState k).nextSet = none ∧ set = []) ∨
    ∃ j, (n.runtimeState k).nextSet = some j ∧ n.nextSets[j]? = some set

/-- The numbers of the states of a list. -/
lemma mem_runtimeSet {n : Numbering} {ids : List Nat} {k : Nat} :
    k ∈ runtimeSet n ids ↔ ∃ i ∈ ids, n.numberOf i = some k := by
  rw [runtimeSet, mem_sortedSet, List.mem_filterMap]
  rfl

/-- **The invariant of numbering next sets**, of which those of the first `m` runtime states have
been numbered. -/
structure NextSets (a : Automaton) (n₀ : Numbering) (m : Nat) (n : Numbering) : Prop where
  number : n.number = n₀.number
  initial : n.initial = n₀.initial
  size_eq : n.runtime.size = n₀.runtime.size
  source : ∀ k, (n.runtimeState k).source = (n₀.runtimeState k).source
  kind : ∀ k, (n.runtimeState k).kind = (n₀.runtimeState k).kind
  next : ∀ k < m, n.NextIs k (runtimeSet n₀ (a.afterMove (n₀.runtimeState k).source))
  later : ∀ k, m ≤ k → (n.runtimeState k).nextSet = (n₀.runtimeState k).nextSet

/-- The runtime states of a set depend on the numbers only. -/
lemma runtimeSet_congr {n n' : Numbering} (h : n.number = n'.number) (ids : List Nat) :
    runtimeSet n ids = runtimeSet n' ids := by
  rw [runtimeSet, runtimeSet, h]

/-- The set of states that become active after a move out of the runtime state `k`. -/
def Numbering.afterSet (a : Automaton) (n : Numbering) (k : Nat) : List Nat :=
  runtimeSet n (a.afterMove (n.runtimeState k).source)

/-- Without states after a move no next set is made. -/
lemma numberNextSet_of_empty {n : Numbering} {k : Nat} (h : n.afterSet a k = []) :
    a.numberNextSet n k = n := by
  rw [numberNextSet]
  exact if_pos (List.isEmpty_iff.mpr h)

/-- Otherwise the next set is numbered. -/
lemma numberNextSet_of_ne {n : Numbering} {k : Nat} (h : n.afterSet a k ≠ []) :
    a.numberNextSet n k = { n with
      nextSets := (intern n.nextSets (n.afterSet a k)).2
      composites := if 1 < (n.afterSet a k).length then (intern n.composites (n.afterSet a k)).2
        else n.composites
      runtime := n.runtime.modify k fun r =>
        { r with nextSet := some (intern n.nextSets (n.afterSet a k)).1 } } := by
  rw [numberNextSet]
  exact if_neg fun hempty => h (List.isEmpty_iff.mp hempty)

/-- The next set of one more runtime state.

**Proof sketch.** The states after the moves of a runtime state depend on the numbers only. If there are
none, nothing is numbered; otherwise the set gets its number, and the earlier sets keep theirs. -/
lemma NextSets.step {n₀ n : Numbering} {m : Nat} (h : NextSets a n₀ m n)
    (hm : m < n₀.runtime.size) (hnone : (n₀.runtimeState m).nextSet = none) :
    NextSets a n₀ (m + 1) (a.numberNextSet n m) := by
  have hset : n.afterSet a m = n₀.afterSet a m := by
    rw [Numbering.afterSet, Numbering.afterSet, runtimeSet_congr h.number, h.source]
  by_cases hempty : n.afterSet a m = []
  · rw [numberNextSet_of_empty hempty]
    refine ⟨h.number, h.initial, h.size_eq, h.source, h.kind, fun k hk => ?_,
      fun k hk => h.later k (by omega)⟩
    rcases Nat.lt_succ_iff_lt_or_eq.mp hk with hk | rfl
    · exact h.next k hk
    · exact Or.inl ⟨(h.later k le_rfl).trans hnone, hset.symm.trans hempty⟩
  · have heq := numberNextSet_of_ne hempty
    obtain ⟨hself, hkeep, -⟩ := intern_spec n.nextSets (n.afterSet a m)
    have hstate : ∀ x, (a.numberNextSet n m).runtimeState x = if x = m then
        { n.runtimeState x with nextSet := some (intern n.nextSets (n.afterSet a m)).1 }
        else n.runtimeState x := by
      intro x
      rw [heq, Numbering.runtimeState, getD_modify, Numbering.runtimeState]
      have : m < n.runtime.size := by rw [h.size_eq]; exact hm
      simp [this]
    have hsets : (a.numberNextSet n m).nextSets = (intern n.nextSets (n.afterSet a m)).2 := by
      rw [heq]
    refine ⟨?_, ?_, ?_, fun x => ?_, fun x => ?_, fun x hx => ?_, fun x hx => ?_⟩
    · rw [heq]
      exact h.number
    · rw [heq]
      exact h.initial
    · rw [heq, Array.size_modify, h.size_eq]
    · rw [hstate, ← h.source]
      split_ifs <;> rfl
    · rw [hstate, ← h.kind]
      split_ifs <;> rfl
    · rw [Numbering.NextIs, hstate, hsets]
      split_ifs with hxm
      · subst hxm
        exact Or.inr ⟨_, rfl, hself.trans (congrArg some hset)⟩
      · rcases h.next x (by omega) with hx | ⟨j, hj, hnext⟩
        · exact Or.inl hx
        · exact Or.inr ⟨j, hj, hkeep hnext⟩
    · rw [hstate, if_neg (by omega), h.later x (by omega)]

/-- The next sets of all runtime states. -/
lemma NextSets.foldl {n₀ : Numbering} (hnone : ∀ k, (n₀.runtimeState k).nextSet = none) :
    ∀ m ≤ n₀.runtime.size, NextSets a n₀ m ((List.range m).foldl a.numberNextSet n₀)
  | 0, _ => ⟨rfl, rfl, rfl, fun _ => rfl, fun _ => rfl, fun _ h => absurd h (Nat.not_lt_zero _),
      fun _ _ => rfl⟩
  | m + 1, hm => by
    rw [List.range_succ, List.foldl_append]
    exact (NextSets.foldl hnone m (by omega)).step hm (hnone m)

/-! ## The scan mode of a numbered automaton -/

/-- **A scan mode mirrors an automaton.** The states of `order` are numbered, with numbers that do
what they do; no others become active, from the closure of the state `initial` on. -/
structure Mirrors (a : Automaton) (initial : Nat) (m : ScanMode) (number : Nat → Option Nat)
    (order : List Nat) : Prop where
  moves : ∀ {i k}, number i = some k → (m.state k).moves = (a.state i).moves
  kind : ∀ {i k}, number i = some k → (m.state k).kind = a.completedKind i
  successors : ∀ {i k}, number i = some k →
    ∀ j, j ∈ m.successors k ↔ ∃ x ∈ a.afterMove i, number x = some j
  numbered : ∀ i ∈ order, ∃ k, number i = some k
  initialStates : ∀ j, j ∈ m.initialStates ↔ ∃ x ∈ (a.state initial).epsilon, number x = some j
  first : ∀ i ∈ (a.state initial).epsilon, (a.state i).hasMoves → i ∈ order
  after : ∀ i ∈ order, ∀ x ∈ a.afterMove i, (a.state x).hasMoves → x ∈ order

/-- The states after a move of a state are those in the epsilon set of its next state. -/
lemma mem_afterMove {i x : Nat} :
    x ∈ a.afterMove i ↔ ∃ n, (a.state i).next = some n ∧ x ∈ (a.state n).epsilon := by
  rw [afterMove]
  cases (a.state i).next <;> simp

/-- States with the same signature have the same states active after a move. -/
lemma afterMove_congr {i j : Nat} (h : a.signature i = a.signature j) :
    a.afterMove i = a.afterMove j := by
  have hafter := congrArg Signature.after h
  simp only [signature] at hafter
  rw [afterMove, afterMove, hafter]

/-- Choosing the initial state changes nothing else that matters to a run. -/
lemma numberInitial_frame (n : Numbering) (set : List Nat) :
    (numberInitial n set).number = n.number ∧ (numberInitial n set).runtime = n.runtime ∧
      (numberInitial n set).nextSets = n.nextSets := by
  match set with
  | [] => exact ⟨rfl, rfl, rfl⟩
  | [k] => exact ⟨rfl, rfl, rfl⟩
  | k :: l :: set => exact ⟨rfl, rfl, rfl⟩

/-- The states in which a match begins are those of the set.

**Proof sketch.** By the number of states in which a match begins: none, a single one, which is given by
itself, or several, which are a composite behind the runtime states. -/
lemma initialStates_numberInitial {n : Numbering} {set : List Nat} {m : ScanMode}
    (hinitial : n.initial = none) (hset : ∀ k ∈ set, k < n.runtime.size)
    (hsize : m.states.size = n.runtime.size)
    (hm : m.initial = (numberInitial n set).initial)
    (hcomposites : m.composites = (numberInitial n set).composites) : m.initialStates = set := by
  rw [ScanMode.initialStates, hm]
  match set with
  | [] =>
    rw [numberInitial, hinitial]
    rfl
  | [k] =>
    have hk : k < m.states.size := hsize ▸ hset k (List.mem_singleton_self k)
    show m.seeds k = [k]
    rw [ScanMode.seeds, if_pos hk]
  | k :: l :: set =>
    obtain ⟨hself, -, -⟩ := intern_spec n.composites (k :: l :: set)
    show m.seeds (n.compositeId _) = _
    rw [ScanMode.seeds, Numbering.compositeId, hsize, if_neg (by omega), Nat.add_sub_cancel_left,
      hcomposites, Array.getD_eq_getD_getElem?]
    exact congrArg (Option.getD · []) hself

/-- A scan state of a numbered automaton. -/
lemma getD_scanStates {n : Numbering} {k : Nat} (hk : k < n.runtime.size) :
    (n.scanStates a).getD k {} = { moves := (a.state (n.runtimeState k).source).moves
                                   kind := (n.runtimeState k).kind
                                   nextSet := (n.runtimeState k).nextSet } := by
  simp only [Numbering.runtimeState, Array.getD_eq_getD_getElem?, Numbering.scanStates,
    Array.getElem?_map, Array.getElem?_eq_getElem hk, Option.map_some, Option.getD_some]

/-- What a numbered state makes active. -/
lemma successors_eq_of_nextIs {m : ScanMode} {n : Numbering} {k : Nat} {set : List Nat}
    (h : n.NextIs k set) (hnext : (m.state k).nextSet = (n.runtimeState k).nextSet)
    (hsets : m.nextSets = n.nextSets) : m.successors k = set := by
  rw [ScanMode.successors, hnext, hsets]
  rcases h with ⟨hnone, rfl⟩ | ⟨j, hj, hset⟩
  · rw [hnone]
    rfl
  · rw [hj, Option.map_some, Option.getD_some, Array.getD_eq_getD_getElem?, hset, Option.getD_some]

/-- **The states with moves that can become active**: those where a match begins, and those active
after a move out of such a state.

**Proof sketch.** The search begins at the roots with moves and goes from a state to those active after
its move; what it has met is closed under its steps, and it only meets states of the automaton. -/
lemma activeOrder_spec (ha : a.InRange) {roots : List Nat} (hroots : ∀ i ∈ roots, i < a.size) :
    (∀ i ∈ a.activeOrder roots, i < a.size) ∧
      (∀ i ∈ roots, (a.state i).hasMoves → i ∈ a.activeOrder roots) ∧
      ∀ i ∈ a.activeOrder roots, ∀ x ∈ a.afterMove i, (a.state x).hasMoves →
        x ∈ a.activeOrder roots := by
  have hafter : ∀ i, ∀ x ∈ a.afterMove i, x < a.size := by
    intro i x hx
    obtain ⟨n, -, hx⟩ := mem_afterMove.mp hx
    exact ha.epsilon n x hx
  simp only [activeOrder, mem_depthFirst, List.mem_filter]
  refine ⟨?_, ?_, ?_⟩
  · rintro i ⟨s, -, hs, hpath⟩
    rcases hpath.cases_tail with heq | ⟨j, -, -, hi⟩
    · exact heq ▸ hs
    · exact hi
  · intro i hi hmoves
    exact ⟨i, ⟨hi, hmoves⟩, hroots i hi, .refl⟩
  · rintro i ⟨s, hs, hlt, hpath⟩ x hx hmoves
    exact ⟨s, hs, hlt, hpath.tail ⟨⟨hx, hmoves⟩, hafter i x hx⟩⟩

/-- **The scan mode of a numbered automaton mirrors it.**

**Proof sketch.** The states are numbered along the search, then the sets after their moves, and last
the set in which a match begins. Each of the three steps keeps what the earlier ones have found, and
together they are what a mirror asks for. -/
theorem mirrors_number {s : LexicalState} {starts : List (Nat × Nat)} (ha : s.automaton.InRange)
    (hs : s.numbering = s.automaton.number s.initialState starts) :
    ∃ order, Mirrors s.automaton s.initialState s.scanMode s.numbering.numberOf order := by
  set a := s.automaton with hadef
  set roots := (a.state s.initialState).epsilon ++ starts.flatMap fun x => (a.state x.2).epsilon
    with hroots
  set order := a.activeOrder roots with horder
  obtain ⟨done, hdone, hnumbered⟩ :=
    Numbered.foldl order (#[], { number := Array.replicate a.size none }) (numbered_empty a)
  set acc := order.foldl a.numberState (#[], { number := Array.replicate a.size none }) with hacc
  have hnext := NextSets.foldl (a := a) hnumbered.nextSet acc.2.runtime.size le_rfl
  set n₁ := (List.range acc.2.runtime.size).foldl a.numberNextSet acc.2 with hn₁
  set n₂ : Numbering := { n₁ with
    starts := starts.map fun x => (x.1, runtimeSet n₁ (a.state x.2).epsilon) } with hn₂
  set set := runtimeSet n₂ (a.state s.initialState).epsilon with hset
  have hs : s.numbering = numberInitial n₂ set := hs
  obtain ⟨hnumber, hruntime, hsets⟩ := numberInitial_frame n₂ set
  rw [← hs] at hnumber hruntime hsets
  have hnumberOf : s.numbering.numberOf = acc.2.numberOf := by
    funext i
    rw [Numbering.numberOf, hnumber, Numbering.numberOf, ← hnext.number]
  have hstate : ∀ {k}, k < acc.2.runtime.size → s.scanMode.state k =
      { moves := (a.state (acc.2.runtimeState k).source).moves, kind := (acc.2.runtimeState k).kind,
        nextSet := (n₁.runtimeState k).nextSet } := by
    intro k hk
    have hk' : k < s.numbering.runtime.size := by rw [hruntime]; exact hnext.size_eq.symm ▸ hk
    rw [← hnext.source, ← hnext.kind]
    refine (getD_scanStates hk').trans ?_
    simp only [Numbering.runtimeState, hruntime, hn₂]
    rfl
  have hrange : ∀ i ∈ roots, i < a.size := by
    intro i hi
    rcases List.mem_append.mp hi with hi | hi
    · exact ha.epsilon _ i hi
    · obtain ⟨x, -, hi⟩ := List.mem_flatMap.mp hi
      exact ha.epsilon _ i hi
  obtain ⟨horder_lt, hfirst, hafter⟩ := activeOrder_spec ha hrange
  rw [hnumberOf]
  refine ⟨order, ?_, ?_, ?_, ?_, ?_, ?_, hafter⟩
  · intro i k hk
    rw [hstate (hnumbered.lt_size hk)]
    exact congrArg Signature.moves (hnumbered.signature hk)
  · intro i k hk
    rw [hstate (hnumbered.lt_size hk)]
    exact (hnumbered.runtime (hnumbered.lt_size hk)).2.trans (congrArg Signature.kind (hnumbered.signature hk))
  · intro i k hk j
    have hnextSet : (s.scanMode.state k).nextSet = (n₁.runtimeState k).nextSet := by
      rw [hstate (hnumbered.lt_size hk)]
    rw [successors_eq_of_nextIs (hnext.next k (hnumbered.lt_size hk)) hnextSet hsets, mem_runtimeSet,
      afterMove_congr (hnumbered.signature hk)]
  · intro i hi
    exact hnumbered.done i ((hdone i).mpr (Or.inl hi)) (horder_lt i hi)
  · intro j
    have hmem : ∀ k, k ∈ set ↔ ∃ x ∈ (a.state s.initialState).epsilon, acc.2.numberOf x = some k := by
      intro k
      rw [hset, mem_runtimeSet]
      simp only [Numbering.numberOf, hn₂, hnext.number]
    have hinit : s.scanMode.initialStates = set := by
      refine initialStates_numberInitial (n := n₂) ?_ ?_ ?_ ?_ ?_
      · exact hnext.initial.trans hnumbered.initial
      · intro k hk
        obtain ⟨x, -, hx⟩ := (hmem k).mp hk
        exact (hnumbered.lt_size hx).trans_eq hnext.size_eq.symm
      · show (s.numbering.runtime.map _).size = _
        rw [Array.size_map, hruntime]
      · show s.numbering.initial = _
        rw [hs]
      · show s.numbering.composites = _
        rw [hs]
    rw [hinit, hmem]
  · intro i hi hmoves
    exact hfirst i (List.mem_append_left _ hi) hmoves

end GrammarForge
