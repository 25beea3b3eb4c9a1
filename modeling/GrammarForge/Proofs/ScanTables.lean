import GrammarForge.Proofs.Scanning
import GrammarForge.Proofs.TidyFragments
import GrammarForge.Proofs.WrittenGrammars

set_option autoImplicit false

/-!
# Well formed scan tables

Scan tables are full of numbers: of states, of sets of states, of composites, of kinds and of modes.
In the tables of a grammar that has been written by calls, all of them are in range.

## Main definitions

* `ScanMode.InRange` — the numbers of states and of their sets are in range.
* `ScanMode.WellFormed`, `ScanTables.WellFormed` — so are those of kinds and modes.
* `Numbering.InRange` — the invariant of numbering.

## Main results

* `Numbering.inRange_number` — the numbers that numbering gives out are in range.
* `Lexer.wellFormed_scanTables` — the tables of a scanner are well formed.
-/

namespace GrammarForge

open Automaton

/-! ## Tables -/

/-- **The numbers of states and of sets of states are in range** in a scan mode. -/
structure ScanMode.InRange (m : ScanMode) : Prop where
  nextSets : ∀ set ∈ m.nextSets, ∀ i ∈ set, i < m.states.size
  composites : ∀ set ∈ m.composites, ∀ i ∈ set, i < m.states.size
  nextSet : ∀ s ∈ m.states, ∀ k ∈ s.nextSet, k < m.nextSets.size
  initial : ∀ id ∈ m.initial, id < m.states.size + m.composites.size

/-- **A well formed scan mode** of tables with so many kinds and modes. No state has the kind zero,
which is that of the end of the input. -/
structure ScanMode.WellFormed (kinds modes : Nat) (m : ScanMode) : Prop extends InRange m where
  kind : ∀ s ∈ m.states, ∀ k ∈ s.kind, 1 ≤ k ∧ k < kinds
  emptyMatch : ∀ k ∈ m.emptyMatch, 1 ≤ k ∧ k < kinds
  eofNextMode : ∀ n ∈ m.eofNextMode, n < modes
  chars : ∀ s ∈ m.states, s.moves.chars.Pairwise (· < ·)

/-- **Well formed scan tables.** -/
structure ScanTables.WellFormed (t : ScanTables) : Prop where
  modes : ∀ m ∈ t.modes, m.WellFormed t.kinds.size t.modes.size
  nextMode : ∀ info ∈ t.kinds, ∀ n ∈ info.nextMode, n < t.modes.size
  startMode : t.startMode < t.modes.size

/-! ## Numbering -/

section

variable {α : Type} [DecidableEq α]

/-- An interned element is the new one or one of the old ones. -/
lemma mem_of_mem_intern {xs : Array α} {x y : α} (h : y ∈ (intern xs x).2) : y = x ∨ y ∈ xs := by
  obtain ⟨-, -, ⟨-, heq⟩ | ⟨-, heq⟩⟩ := intern_spec xs x
  · exact Or.inr (heq ▸ h)
  · rw [heq] at h
    exact (Array.mem_push.mp h).symm

/-- The place of an interned element is one of the places, and none is lost. -/
lemma intern_lt_size (xs : Array α) (x : α) :
    (intern xs x).1 < (intern xs x).2.size ∧ xs.size ≤ (intern xs x).2.size := by
  obtain ⟨-, -, ⟨hlt, heq⟩ | ⟨hlt, heq⟩⟩ := intern_spec xs x
  · rw [heq]
    exact ⟨hlt, le_rfl⟩
  · rw [heq, hlt, Array.size_push]
    omega

end

/-- An element of a changed array was there before, or is a changed one. -/
lemma mem_of_mem_modify {α : Type} {xs : Array α} {k : Nat} {change : α → α} {y : α}
    (h : y ∈ xs.modify k change) : y ∈ xs ∨ ∃ x ∈ xs, y = change x := by
  obtain ⟨i, hi⟩ := Array.mem_iff_getElem?.mp h
  rw [Array.getElem?_modify] at hi
  split_ifs at hi
  · obtain ⟨x, hx, rfl⟩ := Option.map_eq_some_iff.mp hi
    exact Or.inr ⟨x, Array.mem_of_getElem? hx, rfl⟩
  · exact Or.inl (Array.mem_of_getElem? hi)

namespace Numbering

/-- **The numbers of a numbering are in range**: those of states, of sets of states, and of
composites, which come after the states. -/
structure InRange (a : Automaton) (n : Numbering) : Prop where
  number : ∀ {i k}, n.numberOf i = some k → k < n.runtime.size
  nextSets : ∀ set ∈ n.nextSets, ∀ k ∈ set, k < n.runtime.size
  composites : ∀ set ∈ n.composites, ∀ k ∈ set, k < n.runtime.size
  nextSet : ∀ r ∈ n.runtime, ∀ k ∈ r.nextSet, k < n.nextSets.size
  initial : ∀ id ∈ n.initial, id < n.runtime.size + n.composites.size
  kind : ∀ r ∈ n.runtime, r.kind = a.completedKind r.source

namespace InRange

variable {a : Automaton} {n : Numbering}

/-- The runtime states of a set are in range. -/
lemma runtimeSet (h : n.InRange a) (ids : List Nat) : ∀ k ∈ runtimeSet n ids, k < n.runtime.size := by
  intro k hk
  obtain ⟨i, -, hi⟩ := mem_runtimeSet.mp hk
  exact h.number hi

/-- One more next set, which may be a new composite too.

**Proof sketch.** Without states after the move nothing is added. Otherwise the set gets the next number
or one that it has had, and it has runtime states in range; if it has several states, it becomes a
composite as well. -/
lemma numberNextSet (h : n.InRange a) (k : Nat) : (a.numberNextSet n k).InRange a := by
  by_cases hempty : n.afterSet a k = []
  · rw [numberNextSet_of_empty hempty]
    exact h
  · have hset : ∀ i ∈ n.afterSet a k, i < n.runtime.size := h.runtimeSet _
    obtain ⟨hlt, hle⟩ := intern_lt_size n.nextSets (n.afterSet a k)
    rw [numberNextSet_of_ne hempty]
    refine ⟨?_, ?_, ?_, ?_, ?_, ?_⟩
    · intro i j hj
      rw [Array.size_modify]
      exact h.number hj
    · intro set hmem
      rw [Array.size_modify]
      rcases mem_of_mem_intern hmem with rfl | hmem
      · exact hset
      · exact h.nextSets set hmem
    · intro set hmem
      rw [Array.size_modify]
      dsimp only at hmem
      split_ifs at hmem
      · rcases mem_of_mem_intern hmem with rfl | hmem
        · exact hset
        · exact h.composites set hmem
      · exact h.composites set hmem
    · intro r hr j hj
      dsimp only at hr
      rcases mem_of_mem_modify hr with hr | ⟨r, -, rfl⟩
      · exact (h.nextSet r hr j hj).trans_le hle
      · obtain rfl := Option.mem_some_iff.mp hj
        exact hlt
    · intro id hid
      have hcomposites : n.composites.size ≤
          (if 1 < (n.afterSet a k).length then (intern n.composites (n.afterSet a k)).2
            else n.composites).size := by
        split_ifs
        · exact (intern_lt_size _ _).2
        · exact le_rfl
      have hinitial := h.initial id hid
      rw [Array.size_modify]
      dsimp only
      omega
    · intro r hr
      dsimp only at hr
      rcases mem_of_mem_modify hr with hr | ⟨r', hr', rfl⟩
      · exact h.kind r hr
      · exact h.kind r' hr'

/-- The states in which a match begins may be a new composite.

**Proof sketch.** By the number of states in which a match begins: none, one, or a composite of several,
which gets the last number. -/
lemma numberInitial (h : n.InRange a) {set : List Nat} (hset : ∀ k ∈ set, k < n.runtime.size) :
    (numberInitial n set).InRange a := by
  match set, hset with
  | [], _ => exact h
  | [k], hset =>
    refine { h with initial := fun id hid => ?_ }
    obtain rfl := Option.mem_some_iff.mp hid
    exact (hset k (List.mem_singleton_self k)).trans_le (Nat.le_add_right _ _)
  | k :: l :: set, hset =>
    refine { h with composites := fun set' hmem => ?_, initial := fun id hid => ?_ }
    · rcases mem_of_mem_intern hmem with rfl | hmem
      · exact hset
      · exact h.composites set' hmem
    · obtain rfl := Option.mem_some_iff.mp hid
      exact Nat.add_lt_add_left (intern_lt_size _ _).1 _

/-- Where the automata of single tokens begin is of no account. -/
lemma withStarts (h : n.InRange a) (starts : List (Nat × List Nat)) :
    ({ n with starts } : Numbering).InRange a := { h with }

end InRange

/-- Giving out numbers leaves the sets of states alone. -/
lemma foldl_numberState_sets (a : Automaton) (order : List Nat) (acc : Array Signature × Numbering) :
    (order.foldl a.numberState acc).2.nextSets = acc.2.nextSets ∧
      (order.foldl a.numberState acc).2.composites = acc.2.composites :=
  List.foldlRecOn (motive := fun x : Array Signature × Numbering =>
    x.2.nextSets = acc.2.nextSets ∧ x.2.composites = acc.2.composites) order a.numberState
    ⟨rfl, rfl⟩ fun _ h _ _ => h

/-- The numbers that states have been given are in range; there are no sets of states yet.

**Proof sketch.** Runtime states are numbered, with kinds and sources of the automaton; next sets and
composites are still to come. -/
lemma inRange_of_numbered {a : Automaton} {done : List Nat} {signatures : Array Signature}
    {n : Numbering} (h : Numbered a done signatures n) (hsets : n.nextSets = #[])
    (hcomposites : n.composites = #[]) : n.InRange a := by
  have hruntime : ∀ r ∈ n.runtime, ∃ k < n.runtime.size, n.runtimeState k = r := by
    intro r hr
    obtain ⟨k, hk, rfl⟩ := Array.mem_iff_getElem.mp hr
    exact ⟨k, hk, by simp [runtimeState, hk]⟩
  refine ⟨h.lt_size, by simp [hsets], by simp [hcomposites], ?_, by simp [h.initial], ?_⟩
  · intro r hr k hk
    obtain ⟨i, -, rfl⟩ := hruntime r hr
    rw [h.nextSet i] at hk
    cases hk
  · intro r hr
    obtain ⟨k, hk, rfl⟩ := hruntime r hr
    exact (h.runtime hk).2

/-- **All numbers that numbering gives out are in range.**

**Proof sketch.** The states are numbered first, and then the sets after their moves, in two rounds over
what has been numbered; each step keeps all numbers in range. -/
lemma inRange_number (a : Automaton) (initial : Nat) (starts : List (Nat × Nat)) :
    (a.number initial starts).InRange a := by
  set order := a.activeOrder ((a.state initial).epsilon ++
    starts.flatMap fun s => (a.state s.2).epsilon) with horder
  set first : Array Signature × Numbering := (#[], { number := Array.replicate a.size none })
    with hfirst
  set acc := order.foldl a.numberState first with hacc
  obtain ⟨done, -, hnumbered⟩ := Numbered.foldl order first (numbered_empty a)
  obtain ⟨hsets, hcomposites⟩ := foldl_numberState_sets a order first
  have hstates : acc.2.InRange a := inRange_of_numbered hnumbered hsets hcomposites
  have hnext : ((List.range acc.2.runtime.size).foldl a.numberNextSet acc.2).InRange a :=
    List.foldlRecOn _ a.numberNextSet hstates fun _ h k _ => h.numberNextSet k
  set n₁ := (List.range acc.2.runtime.size).foldl a.numberNextSet acc.2 with hn₁
  have hstarts := hnext.withStarts (starts.map fun s =>
    (s.1, Automaton.runtimeSet n₁ (a.state s.2).epsilon))
  exact hstarts.numberInitial (hstarts.runtimeSet _)

end Numbering

/-! ## Lexical states -/

/-- **The scan mode of a lexical state is in range** if its numbering is. -/
lemma LexicalState.inRange_scanMode (s : LexicalState) (h : s.numbering.InRange s.automaton) :
    s.scanMode.InRange := by
  have hsize : s.scanMode.states.size = s.numbering.runtime.size := Array.size_map
  refine { nextSets := ?_, composites := ?_, nextSet := ?_, initial := ?_ }
  · rw [hsize]
    exact h.nextSets
  · rw [hsize]
    exact h.composites
  · intro x hx
    obtain ⟨r, hr, rfl⟩ := Array.mem_map.mp hx
    exact h.nextSet r hr
  · rw [hsize]
    exact h.initial

namespace Lexer

variable {g g' : Grammar} {ctx ctx' : Context}

/-- The state that follows the end of the input is that of a rule. -/
lemma eofNextState_of_finishState {options : Options} {mode initial n : Nat} {t : TokenFragments}
    {s : LexicalState} (h : finishState g options mode initial t = .ok s)
    (hn : n ∈ s.eofNextState) : ∃ rule ∈ g.eofRules, n ∈ rule.nextState := by
  rw [finishState] at h
  cases hc : t.construction.automaton.closures options.reduceStates with
  | error e =>
    rw [hc] at h
    cases h
  | ok b =>
    rw [hc] at h
    obtain rfl := Except.ok.inj h
    obtain ⟨rule, hrule, hn⟩ := Option.mem_bind_iff.mp hn
    have hmem := List.mem_of_mem_filter (List.mem_of_getLast? hrule)
    exact ⟨rule, Array.mem_toList_iff.mp hmem, hn⟩

/-- **The automaton of a lexical state is tidy**: its kinds are those of tokens. -/
lemma tidy_buildState {mode : Nat} {s : LexicalState}
    (h : buildState g ctx mode = (.ok s, g', ctx')) :
    s.automaton.Tidy fun k => 1 ≤ k ∧ k < g.tokens.size := by
  obtain ⟨t, hadd, hfinish, -, -⟩ := buildState_eq_ok h
  obtain ⟨hclosures, -, -, -⟩ := finishState_eq_ok hfinish
  have hknown : ∀ token ∈ activeTokens g mode, 1 ≤ token.1 ∧ token.1 < g.tokens.size := by
    rintro ⟨k, d⟩ htoken
    obtain ⟨hk, hd, -⟩ := mem_activeTokens.mp htoken
    exact ⟨hk, (Array.getElem?_eq_some_iff.mp hd).1⟩
  have hfirst : ({} : Automaton).newState.2.Tidy fun k => 1 ≤ k ∧ k < g.tokens.size :=
    Automaton.Tidy.empty.push State.Tidy.empty
  exact (tidy_addAll ctx.options _ hadd hknown hfirst).closures _ _ hclosures

/-- **A lexical state makes a well formed mode.**

**Proof sketch.** Every state of the mode is made of a runtime state, with a kind of one of the tokens
and a set in range; the tables of its moves are in order, since the states of the automaton are tidy. -/
lemma wellFormed_buildState (hg : g.StatesKnown) {mode : Nat} {s : LexicalState}
    (h : buildState g ctx mode = (.ok s, g', ctx')) :
    s.scanMode.WellFormed g.tokens.size g.lexicalStates.size := by
  have htidy := tidy_buildState h
  obtain ⟨t, -, hfinish, -, -⟩ := buildState_eq_ok h
  obtain ⟨-, -, hnumber, hempty⟩ := finishState_eq_ok hfinish
  have hrange : s.numbering.InRange s.automaton := hnumber ▸ Numbering.inRange_number _ _ _
  have hstate : ∀ x ∈ s.scanMode.states, ∃ r ∈ s.numbering.runtime, x =
      { moves := (s.automaton.state r.source).moves, kind := r.kind, nextSet := r.nextSet } := by
    intro x hx
    obtain ⟨r, hr, rfl⟩ := Array.mem_map.mp hx
    exact ⟨r, hr, rfl⟩
  refine { s.inRange_scanMode hrange with kind := ?_, emptyMatch := ?_, eofNextMode := ?_, chars := ?_ }
  · intro x hx k hk
    obtain ⟨r, hr, rfl⟩ := hstate x hx
    dsimp only at hk
    rw [hrange.kind r hr] at hk
    obtain ⟨n, -, hn⟩ := Option.mem_bind_iff.mp hk
    exact (htidy n).kind k hn
  · intro k hk
    have hk : k ∈ s.emptyMatch := hk
    rw [hempty] at hk
    exact (htidy 0).kind k hk
  · intro n hn
    obtain ⟨rule, hrule, hn⟩ := eofNextState_of_finishState hfinish hn
    exact hg.eofRules rule hrule n hn
  · intro x hx
    obtain ⟨r, -, rfl⟩ := hstate x hx
    exact (htidy r.source).moves.chars

/-- Lexical states make well formed modes, one each.

**Proof sketch.** Induction on the lexical states: only the slots of the grammar change from one to the
next. -/
lemma wellFormed_buildStates : ∀ (modes : List Nat) {g g' : Grammar} {ctx ctx' : Context}
    {states : List LexicalState}, g.StatesKnown →
    buildStates g ctx modes = (.ok states, g', ctx') → states.length = modes.length ∧
      ∀ s ∈ states, s.scanMode.WellFormed g.tokens.size g.lexicalStates.size
  | [], _, _, _, _, _, _, h => by
    cases h
    exact ⟨rfl, by simp⟩
  | mode :: modes, g, g', ctx, ctx', states, hg, h => by
    obtain ⟨s, ss, g₁, ctx₁, hone, hrest, rfl⟩ := buildStates_cons_eq_ok h
    obtain ⟨t, -, -, rfl, -⟩ := buildState_eq_ok hone
    have hg₁ : Grammar.StatesKnown { g with regexes := t.construction.slots } :=
      hg.of_eq rfl rfl le_rfl
    obtain ⟨hlength, hall⟩ := wellFormed_buildStates modes hg₁ hrest
    refine ⟨congrArg (· + 1) hlength, fun x hx => ?_⟩
    rcases List.mem_cons.mp hx with rfl | hx
    · exact wellFormed_buildState hg hone
    · exact hall x hx

/-- **The tables of a scanner are well formed**, if the lexical states that its grammar enters are
known.

**Proof sketch.** Each mode is made by a lexical state with the tokens of the grammar, and each kind has
the action and the next mode of a token. -/
lemma wellFormed_scanTables {lexer : Lexer} (hg : g.StatesKnown)
    (h : build g ctx = (.ok lexer, g', ctx')) : lexer.scanTables.WellFormed := by
  have htokens : g'.tokens = g.tokens := by
    rw [(repeats_build h).grammar]
  rw [build] at h
  rcases hstates : buildStates g ctx (List.range g.lexicalStates.size) with ⟨_ | states, g₁, ctx₁⟩
  · rw [hstates] at h
    cases h
  · rw [hstates] at h
    cases h
    obtain ⟨hlength, hall⟩ := wellFormed_buildStates _ hg hstates
    rw [List.length_range] at hlength
    have hmodes : (scanTables ⟨states.toArray, kindInfos g'⟩).modes.size = g.lexicalStates.size := by
      simpa [scanTables] using hlength
    have hkinds : (kindInfos g').size = g.tokens.size := by
      rw [← htokens]
      exact Array.size_mapIdx
    refine ⟨fun m hm => ?_, fun info hinfo n hn => ?_, ?_⟩
    · obtain ⟨s, hs, rfl⟩ := Array.mem_map.mp hm
      rw [hmodes]
      exact hkinds ▸ hall s (List.mem_toArray.mp hs)
    · obtain ⟨k, hk, rfl⟩ := Array.mem_mapIdx.mp hinfo
      rw [hmodes]
      exact hg.tokens _ (htokens ▸ Array.getElem_mem hk) n hn
    · rw [hmodes]
      exact hg.start

end Lexer

end GrammarForge
