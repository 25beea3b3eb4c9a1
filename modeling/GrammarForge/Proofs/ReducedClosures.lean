import GrammarForge.Proofs.ClosureSweeps
import GrammarForge.Proofs.Scanning
import GrammarForge.Proofs.SharpStates

set_option autoImplicit false

/-!
# Reduced automata stay closed

Reduction replaces members of a closure by merged states. Closing the automaton again would bring the
members back if epsilon moves still led to them from a merged state, or from a state that stayed. In an
automaton built from regular expressions they do not: all states in a closure move or accept, and such a
state leads to nothing but itself. So a closure ends with its members, old or merged, and closing again
changes nothing.

## Main definitions

* `Automaton.Pruned` — closures of old states have useful members, and useful states lead nowhere else.
* `Reduction.Pruned` — the same of an automaton under reduction, with the merged states it remembers.
* `Trades` — a step of merging that keeps this.

## Main results

* `pruned_foldlM_reduceState` — reducing closures one after the other.
* `Automaton.Pruned.settled` — closing the new states leaves nothing to be closed.
* `Lexer.build_closed_again` — closing the automata of a scanner again changes nothing.
-/

namespace GrammarForge

open Automaton

/-! ## Useful states stay useful -/

namespace MoveTable

variable {t : MoveTable}

/-- A table is empty if all its parts are. -/
lemma isEmpty_iff : t.isEmpty ↔ t.ascii = 0#128 ∧ t.chars = [] ∧ t.ranges = [] := by
  simp [isEmpty, and_assoc]

/-- A table with an ASCII character more is empty only if it was, since adding sets bits. -/
lemma isEmpty_of_addAscii {n : Nat} (h : (t.addAscii n).isEmpty) : t.isEmpty := by
  rw [isEmpty_iff] at h ⊢
  exact ⟨(BitVec.or_eq_zero_iff.mp h.1).1, h.2⟩

/-- An insertion leaves something. -/
lemma insertSorted_ne_nil {α : Type} (cmp : α → α → Ordering) [Std.LawfulEqCmp cmp] (x : α)
    (xs : List α) : insertSorted cmp x xs ≠ [] :=
  List.ne_nil_of_mem ((mem_insertSorted cmp).mpr (Or.inl rfl))

/-- A table with a character more is empty only if it was. -/
lemma isEmpty_of_addChar {c : Char} (h : (t.addChar c).isEmpty) : t.isEmpty := by
  unfold addChar at h
  split_ifs at h
  · exact isEmpty_of_addAscii h
  · exact absurd (isEmpty_iff.mp h).2.1 (insertSorted_ne_nil _ _ _)

/-- A table with a wide range more is empty only if it was. -/
lemma isEmpty_of_addWide {lo hi : Char} (h : (t.addWide lo hi).isEmpty) : t.isEmpty := by
  unfold addWide at h
  split_ifs at h
  · exact h
  · exact isEmpty_of_addChar h
  · exact absurd (isEmpty_iff.mp h).2.2 (insertSorted_ne_nil _ _ _)

/-- What holds of each addition holds of several ones. -/
lemma isEmpty_of_foldl {α : Type} {f : MoveTable → α → MoveTable}
    (hf : ∀ {t x}, (f t x).isEmpty → t.isEmpty) (xs : List α) :
    ∀ {t : MoveTable}, (xs.foldl f t).isEmpty → t.isEmpty := by
  induction xs with
  | nil => exact id
  | cons x xs ih => exact fun h => hf (ih h)

/-- A table with a range more is empty only if it was. -/
lemma isEmpty_of_addRange {lo hi : Char} (h : (t.addRange lo hi).isEmpty) : t.isEmpty := by
  unfold addRange at h
  by_cases hlt : hi < lo
  · rwa [if_pos hlt] at h
  · rw [if_neg hlt] at h
    exact isEmpty_of_foldl isEmpty_of_addAscii _ (isEmpty_of_addWide h)

/-- A union with an empty result has an empty first table. -/
lemma isEmpty_of_union {u : MoveTable} (h : (t.union u).isEmpty) : t.isEmpty := by
  have hboth := isEmpty_of_foldl isEmpty_of_addChar _ (isEmpty_of_foldl isEmpty_of_addRange _ h)
  rw [isEmpty_iff] at hboth ⊢
  exact ⟨(BitVec.or_eq_zero_iff.mp hboth.1).1, hboth.2⟩

end MoveTable

/-- A useful state stays useful when it absorbs others. -/
lemma isUseful_foldl_absorb (f : Nat → State) (is : List Nat) : ∀ {s : State}, s.isUseful →
    (is.foldl (fun s i => s.absorb (f i)) s).isUseful := by
  induction is with
  | nil => exact id
  | cons i is ih =>
    intro s hs
    refine ih ?_
    rw [State.isUseful, Bool.or_eq_true] at hs ⊢
    rcases hs with hs | hs
    · exact Or.inl (by simp [State.absorb, hs])
    · refine Or.inr ?_
      rw [State.hasMoves, Bool.not_eq_true'] at hs ⊢
      exact Bool.eq_false_iff.mpr fun hempty =>
        Bool.eq_false_iff.mp hs (MoveTable.isEmpty_of_union hempty)

/-! ## Pruned automata -/

/-- **The closures of the `n` old states are pruned**: they have useful members only, among them the
state itself if it has moves; and useful states, old or new, lead to nothing but themselves. -/
structure Automaton.Pruned (n : Nat) (b : Automaton) : Prop where
  size_le : n ≤ b.size
  alone : ∀ {i t}, (b.state i).isUseful → b.Silent i t → t = i
  useful : ∀ {i t}, i < n → b.Silent i t → (b.state t).isUseful
  self : ∀ {i}, i < n → (b.Silent i i ↔ (b.state i).hasMoves)
  ascending : ∀ {i}, i < n → (b.state i).epsilon.Pairwise (· < ·)

/-- An automaton under reduction is pruned, and the merged states that it remembers are new and
useful. -/
structure Reduction.Pruned (n : Nat) (r : Reduction) : Prop
    extends Automaton.Pruned n r.automaton where
  merged : ∀ {is i}, r.merged.get? is = some i → n ≤ i ∧ (r.automaton.state i).isUseful

/-- Only a state that is there is useful. -/
lemma lt_size_of_isUseful {b : Automaton} {i : Nat} (h : (b.state i).isUseful) : i < b.size := by
  by_contra hge
  rw [isUseful_of_empty (state_of_size_le (not_lt.mp hge))] at h
  cases h

section

variable {n : Nat} {b : Automaton}

/-- A sharp state is added.

**Proof sketch.** An old state is as it was, and so are the members of its closure. The only new state
is sharp, and it is not one that the conditions on old states speak of. -/
lemma Automaton.Pruned.push (h : b.Pruned n) {s : State} (hs : s.Sharp) : (b.push s).Pruned n := by
  have hold : ∀ {i}, i < n → (b.push s).state i = b.state i :=
    fun hi => state_push_of_lt s (hi.trans_le h.size_le)
  refine ⟨by rw [size_push]; exact h.size_le.trans (Nat.le_succ _), fun {i t} hi hit => ?_,
    fun {i t} hi hit => ?_, fun {i} hi => ?_, fun {i} hi => ?_⟩
  · rw [Silent] at hit
    rw [Automaton.state, Automaton.push, getD_push] at hi hit
    split_ifs at hi hit with hnew
    · rw [hs hi] at hit
      cases hit
    · exact h.alone hi hit
  · rw [Silent, hold hi] at hit
    have huseful := h.useful hi hit
    rwa [state_push_of_lt s (lt_size_of_isUseful huseful)]
  · rw [Silent, hold hi]
    exact h.self hi
  · rw [hold hi]
    exact h.ascending hi

/-- The closure of an old state is replaced.

**Proof sketch.** Moves and kinds do not change, so that a state is useful just if it was. The closure
of the given state has the conditions as hypotheses, and all others are as before. -/
lemma Automaton.Pruned.withEpsilon (h : b.Pruned n) {i : Nat} {js : List Nat} (hi : i < n)
    (halone : (b.state i).isUseful → ∀ j ∈ js, j = i) (huseful : ∀ j ∈ js, (b.state j).isUseful)
    (hself : i ∈ js ↔ (b.state i).hasMoves) (hjs : js.Pairwise (· < ·)) :
    (withEpsilon b i js).Pruned n := by
  have hib : i < b.size := hi.trans_le h.size_le
  have hsilent : ∀ {x t}, (GrammarForge.withEpsilon b i js).Silent x t ↔
      if x = i then t ∈ js else b.Silent x t := by
    intro x t
    rw [Silent, state_withEpsilon hib]
    split_ifs <;> rfl
  have huseful_eq : ∀ x, ((GrammarForge.withEpsilon b i js).state x).isUseful =
      (b.state x).isUseful := by
    intro x
    rw [state_withEpsilon hib]
    rfl
  refine ⟨by rw [size_withEpsilon]; exact h.size_le, fun {x t} hx hxt => ?_, fun {x t} hx hxt => ?_,
    fun {x} hx => ?_, fun {x} hx => ?_⟩
  · rw [huseful_eq] at hx
    rw [hsilent] at hxt
    split_ifs at hxt with hxi
    · rw [hxi] at hx ⊢
      exact halone hx t hxt
    · exact h.alone hx hxt
  · rw [huseful_eq]
    rw [hsilent] at hxt
    split_ifs at hxt
    · exact huseful t hxt
    · exact h.useful hx hxt
  · have hmoves : ((GrammarForge.withEpsilon b i js).state x).hasMoves = (b.state x).hasMoves := by
      rw [state_withEpsilon hib]
      rfl
    rw [hsilent, hmoves]
    split_ifs with hxi
    · rw [hxi]
      exact hself
    · exact h.self hx
  · rw [state_withEpsilon hib]
    dsimp only
    split_ifs
    · exact hjs
    · exact h.ascending hx

end

/-! ## Steps of merging -/

/-- **A step of merging that replaced `is` by `js`**: old states stay, and what is new in `js` is a
new state, and a useful one. -/
structure Trades (n : Nat) (r r' : Reduction) (is js : List Nat) : Prop where
  pruned : r'.Pruned n
  size_le : r.automaton.size ≤ r'.automaton.size
  state : ∀ {i}, i < r.automaton.size → r'.automaton.state i = r.automaton.state i
  members : ∀ j ∈ js, j ∈ is ∨ (n ≤ j ∧ (r'.automaton.state j).isUseful)

namespace Trades

variable {n : Nat} {r r' r'' : Reduction} {is js ks : List Nat} {i j : Nat}

/-- Nothing is traded. -/
lemma refl (h : r.Pruned n) (is : List Nat) : Trades n r r is is :=
  ⟨h, le_rfl, fun _ => rfl, fun _ => Or.inl⟩

/-- Useful states stay useful. -/
lemma useful (h : Trades n r r' is js) (hi : (r.automaton.state i).isUseful) :
    (r'.automaton.state i).isUseful := by
  rwa [h.state (lt_size_of_isUseful hi)]

/-- Useful states are replaced by useful ones. -/
lemma useful_members (h : Trades n r r' is js) (his : ∀ i ∈ is, (r.automaton.state i).isUseful) :
    ∀ j ∈ js, (r'.automaton.state j).isUseful := by
  intro j hj
  rcases h.members j hj with hj | ⟨-, hj⟩
  · exact h.useful (his j hj)
  · exact hj

/-- What has been traded can be traded in turn. -/
lemma trans (h : Trades n r r' is js) (h' : Trades n r' r'' js ks) : Trades n r r'' is ks where
  pruned := h'.pruned
  size_le := h.size_le.trans h'.size_le
  state hi := (h'.state (hi.trans_le h.size_le)).trans (h.state hi)
  members k hk := by
    rcases h'.members k hk with hk | hk
    · exact (h.members k hk).imp_right fun hk => ⟨hk.1, h'.useful hk.2⟩
    · exact Or.inr hk

/-- One more state is left out, or kept aside. -/
lemma mono (h : Trades n r r' is js) (hsub : ∀ i ∈ is, i ∈ ks) : Trades n r r' ks js :=
  { h with members := fun j hj => (h.members j hj).imp_left (hsub j) }

/-- Two steps on parts of a list. -/
lemma append (h : Trades n r r' ks is) (h' : Trades n r' r'' ks js) : Trades n r r'' ks (is ++ js) where
  pruned := h'.pruned
  size_le := h.size_le.trans h'.size_le
  state hi := (h'.state (hi.trans_le h.size_le)).trans (h.state hi)
  members j hj := by
    rcases List.mem_append.mp hj with hj | hj
    · exact (h.members j hj).imp_right fun hj => ⟨hj.1, h'.useful hj.2⟩
    · exact h'.members j hj

/-- The order of the new states does not matter. -/
lemma congr (h : Trades n r r' is js) (hks : ∀ k ∈ ks, k ∈ js) : Trades n r r' is ks :=
  { h with members := fun k hk => h.members k (hks k hk) }

end Trades

section

variable {n : Nat} {r : Reduction}

/-- Remembered states are not affected by a change that keeps useful states useful. -/
lemma Reduction.Pruned.change (h : r.Pruned n) {b : Automaton} (hb : b.Pruned n)
    (huseful : ∀ {i}, (r.automaton.state i).isUseful → (b.state i).isUseful) :
    ({ r with automaton := b } : Reduction).Pruned n :=
  ⟨hb, fun hget => ⟨(h.merged hget).1, huseful (h.merged hget).2⟩⟩

/-- Remembered states are not affected by states that are added. -/
lemma Reduction.Pruned.grow (h : r.Pruned n) {b : Automaton} (hb : b.Pruned n)
    (hstate : ∀ {i}, i < r.automaton.size → b.state i = r.automaton.state i) :
    ({ r with automaton := b } : Reduction).Pruned n :=
  h.change hb fun hi => by rwa [hstate (lt_size_of_isUseful hi)]

/-- What is added for states with equal moves: a useful state without epsilon moves, and its next
state, which is not useful. -/
lemma exists_addTwinState (b : Automaton) {i : Nat} (rest : List Nat) (hi : (b.state i).isUseful) :
    ∃ twin successor : State,
      Reduction.addTwinState b (i :: rest) = (b.size, (b.push twin).push successor) ∧
        twin.isUseful ∧ twin.epsilon = [] ∧ successor.isUseful = false := by
  refine ⟨_, _, rfl, ?_, rfl, by rfl⟩
  rw [State.isUseful, Bool.or_eq_true] at hi ⊢
  refine hi.imp (fun hi => ?_) id
  exact Bool.or_eq_true_iff.mpr (Or.inl hi)

/-- **The state for states with equal moves**, made now or before.

**Proof sketch.** A state made before is found again. A new one is the copy of a useful state without
epsilon moves; its successor has no moves and no kind, and so it is sharp. -/
lemma trades_twinState (h : r.Pruned n) {is : List Nat} (hne : is ≠ [])
    (his : ∀ i ∈ is, (r.automaton.state i).isUseful) :
    Trades n r (r.twinState is).2 is [(r.twinState is).1] := by
  rw [Reduction.twinState]
  cases hget : r.merged.get? is with
  | some i =>
    exact ⟨h, le_rfl, fun _ => rfl, fun j hj => Or.inr (List.mem_singleton.mp hj ▸ h.merged hget)⟩
  | none =>
    obtain ⟨i, rest, rfl⟩ := List.exists_cons_of_ne_nil hne
    obtain ⟨twin, successor, hadd, huseful, hepsilon, hsuccessor⟩ :=
      exists_addTwinState r.automaton rest (his i List.mem_cons_self)
    simp only [hadd]
    set b := (r.automaton.push twin).push successor with hb
    have hold : ∀ {x}, x < r.automaton.size → b.state x = r.automaton.state x := by
      intro x hx
      rw [hb, state_push_of_lt _ (by rw [size_push]; omega), state_push_of_lt _ hx]
    have hnew : b.state r.automaton.size = twin := by
      rw [hb, state_push_of_lt _ (by rw [size_push]; omega), state_push_size]
    have hpruned : b.Pruned n :=
      (h.toPruned.push fun _ => hepsilon).push fun hs => absurd hs (by simp [hsuccessor])
    have hgrown := h.grow hpruned hold
    have hmember : n ≤ r.automaton.size ∧ (b.state r.automaton.size).isUseful :=
      ⟨h.size_le, by rwa [hnew]⟩
    refine ⟨⟨hpruned, fun {js j} hj => ?_⟩, ?_, hold, fun j hj => ?_⟩
    · rw [OrderedMap.get?_insert] at hj
      split_ifs at hj
      · cases hj
        exact hmember
      · exact hgrown.merged hj
    · rw [hb, size_push, size_push]
      omega
    · rw [List.mem_singleton.mp hj]
      exact Or.inr hmember

/-- The first state and those that move like it.

**Proof sketch.** The state that is found or added has been traded for the first one and those that move
like it. -/
lemma trades_firstTwin (h : r.Pruned n) {i : Nat} {rest : List Nat}
    (his : ∀ x ∈ i :: rest, (r.automaton.state x).isUseful) :
    Trades n r (r.firstTwin i rest).2 (i :: rest) [(r.firstTwin i rest).1] := by
  rw [Reduction.firstTwin]
  set twins := rest.filter (Reduction.areTwins r.automaton i)
  split_ifs
  · exact (Trades.refl h [i]).mono fun x hx => List.mem_singleton.mp hx ▸ List.mem_cons_self
  · have hsub : ∀ x ∈ sortedSet compare (i :: twins), x ∈ i :: rest := by
      intro x hx
      rw [mem_sortedSet] at hx
      exact List.cons_subset_cons i List.filter_sublist.subset hx
    have hne : sortedSet compare (i :: twins) ≠ [] :=
      List.ne_nil_of_mem ((mem_sortedSet compare).mpr (List.mem_cons_self (a := i)))
    exact (trades_twinState h hne fun x hx => his x (hsub x hx)).mono hsub

/-- **Merging states with equal moves.** -/
lemma trades_mergeTwins : ∀ (is earlier : List Nat) {r : Reduction}, r.Pruned n →
    (∀ i ∈ is, (r.automaton.state i).isUseful) →
    Trades n r (r.mergeTwins earlier is).2 is (r.mergeTwins earlier is).1
  | [], _, _, h, _ => Trades.refl h []
  | i :: is, earlier, r, h, his => by
    have his' := fun x hx => his x (List.mem_cons_of_mem i hx)
    by_cases hany : earlier.any (Reduction.areTwins r.automaton · i)
    · rw [mergeTwins_cons_of_any hany]
      exact (trades_mergeTwins is (i :: earlier) h his').mono fun x => List.mem_cons_of_mem i
    · rw [mergeTwins_cons_of_not_any hany]
      have hfirst := trades_firstTwin h his
      have hrest := trades_mergeTwins is (i :: earlier) hfirst.pruned
        fun x hx => hfirst.useful (his' x hx)
      exact hfirst.append (hrest.mono fun x => List.mem_cons_of_mem i)

/-- **The state for states with the same next state.**

**Proof sketch.** The new state is a copy of the first one without epsilon moves, into which the others
are merged. It is useful since the first one is, and it has an empty epsilon set. -/
lemma trades_addJointState (h : r.Pruned n) {i : Nat} {others : List Nat}
    (his : ∀ x ∈ i :: others, (r.automaton.state x).isUseful) :
    ∃ j r', r.addJointState i others = .ok (j, r') ∧ Trades n r r' (i :: others) [j] := by
  obtain ⟨hi, hothers⟩ := List.forall_mem_cons.mp his
  set start := (r.automaton.state i).withoutEpsilon with hstart
  obtain ⟨b, hfold, hsize, hframe, hnew⟩ :=
    foldlM_mergeMoves others (r.automaton.push start) (size_push _ _)
      fun x hx => lt_size_of_isUseful (hothers x hx)
  rw [state_push_size] at hnew
  have hold : ∀ {x}, x < r.automaton.size → b.state x = r.automaton.state x :=
    fun hx => (hframe _ hx).trans (state_push_of_lt _ hx)
  have huseful : (b.state r.automaton.size).isUseful := by
    rw [hnew]
    exact isUseful_foldl_absorb _ _ hi
  have hepsilon : (b.state r.automaton.size).epsilon = [] := by
    rw [hnew]
    exact (foldl_absorb_frame _ others start).2
  have hpush : b = r.automaton.push (b.state r.automaton.size) := by
    refine ext_state (by rw [hsize, size_push]) fun x hx => ?_
    rcases Nat.lt_or_ge x r.automaton.size with hlt | hge
    · rw [hold hlt, state_push_of_lt _ hlt]
    · obtain rfl : x = r.automaton.size := by omega
      rw [state_push_size]
  have hpruned : b.Pruned n := by
    rw [hpush]
    exact h.toPruned.push fun _ => hepsilon
  refine ⟨r.automaton.size, { r with automaton := b }, ?_, h.grow hpruned hold, ?_, hold, ?_⟩
  · rw [Reduction.addJointState, ← hstart, hfold]
    rfl
  · show r.automaton.size ≤ b.size
    omega
  · intro j hj
    rw [List.mem_singleton.mp hj]
    exact Or.inr ⟨h.size_le, huseful⟩

/-- **Merging states with the same next state.**

**Proof sketch.** Induction on the states, along the three cases: one whose next state an earlier one
has, one that is alone with its next state, and one that is joined with others. -/
lemma trades_mergeByNext : ∀ (is earlier : List Nat) {r : Reduction}, r.Pruned n →
    (∀ i ∈ is, (r.automaton.state i).isUseful) →
    ∃ kept joint r', r.mergeByNext earlier is = .ok ((kept, joint), r') ∧
      Trades n r r' is (kept ++ joint)
  | [], _, r, h, _ => ⟨[], [], r, rfl, Trades.refl h []⟩
  | i :: is, earlier, r, h, his => by
    have his' := fun x hx => his x (List.mem_cons_of_mem i hx)
    by_cases hany : earlier.any fun j =>
        (r.automaton.state j).next = (r.automaton.state i).next
    · obtain ⟨kept, joint, r', hrun, hrest⟩ := trades_mergeByNext is (i :: earlier) h his'
      refine ⟨kept, joint, r', ?_, hrest.mono fun x => List.mem_cons_of_mem i⟩
      rw [mergeByNext_cons_of_any hany, hrun]
    · by_cases hothers : r.withNextOf i is = []
      · obtain ⟨kept, joint, r', hrun, hrest⟩ := trades_mergeByNext is (i :: earlier) h his'
        refine ⟨i :: kept, joint, r', mergeByNext_cons_of_alone hany hothers hrun, ?_⟩
        have hfirst : Trades n r r (i :: is) [i] :=
          (Trades.refl h [i]).mono fun x hx => List.mem_singleton.mp hx ▸ List.mem_cons_self
        exact hfirst.append (hrest.mono fun x => List.mem_cons_of_mem i)
      · have hsub : ∀ x ∈ i :: r.withNextOf i is, x ∈ i :: is :=
          List.cons_subset_cons i List.filter_sublist.subset
        obtain ⟨j, r₁, hjoint, hfirst⟩ := trades_addJointState h fun x hx => his x (hsub x hx)
        obtain ⟨kept, joint, r', hrun, hrest⟩ := trades_mergeByNext is (i :: earlier) hfirst.pruned
          fun x hx => hfirst.useful (his' x hx)
        refine ⟨kept, j :: joint, r', mergeByNext_cons_of_joint hany hothers hjoint hrun, ?_⟩
        have hboth := (hfirst.mono hsub).append (hrest.mono fun x => List.mem_cons_of_mem i)
        exact hboth.congr fun k hk => by simpa [or_left_comm] using hk

/-- One round of merging. -/
lemma trades_mergeOnce (h : r.Pruned n) {is : List Nat}
    (his : ∀ i ∈ is, (r.automaton.state i).isUseful) :
    ∃ js r', r.mergeOnce is = .ok (js, r') ∧ Trades n r r' is js := by
  have htwins := trades_mergeTwins is [] h his
  obtain ⟨kept, joint, r', hrun, hnext⟩ :=
    trades_mergeByNext _ [] htwins.pruned (htwins.useful_members his)
  refine ⟨kept ++ joint, r', ?_, htwins.trans hnext⟩
  show ((r.mergeTwins [] is).2.mergeByNext [] (r.mergeTwins [] is).1 >>= _) = _
  rw [hrun]
  rfl

/-- **Rounds of merging**, by induction on the number of states that are left.

**Proof sketch.** A round that leaves fewer states is followed by another one; otherwise merging ends.
-/
lemma trades_mergeAll (is : List Nat) : ∀ {r : Reduction}, r.Pruned n →
    (∀ i ∈ is, (r.automaton.state i).isUseful) →
    ∃ js r', r.mergeAll is = .ok (js, r') ∧ Trades n r r' is js := by
  induction hlen : is.length using Nat.strong_induction_on generalizing is with
  | _ m ih =>
    intro r h his
    obtain ⟨js, r₁, hrun, hround⟩ := trades_mergeOnce h his
    rw [Reduction.mergeAll, hrun]
    dsimp only
    split_ifs with hlt
    · obtain ⟨ks, r₂, hrun₂, hrest⟩ :=
        ih js.length (hlen ▸ hlt) js rfl hround.pruned (hround.useful_members his)
      exact ⟨ks, r₂, hrun₂, hround.trans hrest⟩
    · exact ⟨js, r₁, rfl, hround⟩

/-- A closure with at most one member stays as it is. -/
lemma mergeAll_of_length_le_one {is : List Nat} (h : is.length ≤ 1) :
    r.mergeAll is = .ok (is, r) := by
  have honce : r.mergeOnce is = .ok (is, r) := by
    match is, h with
    | [], _ => rfl
    | [i], _ => rfl
  rw [Reduction.mergeAll, honce]
  simp

/-- An ascending list whose members are all the same has at most one. -/
lemma length_le_one_of_ascending {is : List Nat} (h : is.Pairwise (· < ·)) {i : Nat}
    (hall : ∀ t ∈ is, t = i) : is.length ≤ 1 := by
  match is, h, hall with
  | [], _, _ => simp
  | [_], _, _ => simp
  | x :: y :: is, h, hall =>
    have hx := hall x (by simp)
    have hy := hall y (by simp)
    have hxy := List.rel_of_pairwise_cons h (List.mem_cons_self (a := y))
    omega

/-- **Reducing the closure of an old state** keeps closures pruned. The closure of a useful state has
no member but the state itself, and nothing is merged there.

**Proof sketch.** A useful state is at most followed by itself, so that nothing is merged there. For
another one, the epsilon set is replaced by what it has been traded for. -/
lemma pruned_reduceState (h : r.Pruned n) {i : Nat} (hi : i < n) :
    ∃ r', r.reduceState i = .ok r' ∧ r'.Pruned n := by
  have hmembers : ∀ t ∈ (r.automaton.state i).epsilon, (r.automaton.state t).isUseful :=
    fun t ht => h.useful hi ht
  obtain ⟨js, r', hrun, htrade⟩ := trades_mergeAll _ h hmembers
  have hstate := htrade.state (hi.trans_le h.size_le)
  have hstays : (r.automaton.state i).isUseful → js = (r.automaton.state i).epsilon := by
    intro huseful
    have hshort := length_le_one_of_ascending (h.ascending hi) fun t => h.alone huseful
    rw [mergeAll_of_length_le_one hshort] at hrun
    cases hrun
    rfl
  have hself : i ∈ sortedSet compare js ↔ (r'.automaton.state i).hasMoves := by
    rw [mem_sortedSet, hstate]
    constructor
    · intro hij
      rcases htrade.members i hij with hij | ⟨hle, -⟩
      · exact (h.self hi).mp hij
      · omega
    · intro hmoves
      rw [hstays (by simp [State.isUseful, hmoves])]
      exact (h.self hi).mpr hmoves
  have hpruned : (withEpsilon r'.automaton i (sortedSet compare js)).Pruned n := by
    refine htrade.pruned.withEpsilon hi (fun huseful j hj => ?_) (fun j hj => ?_) hself
      (ascending_sortedSet js)
    · rw [hstate] at huseful
      rw [mem_sortedSet, hstays huseful] at hj
      exact h.alone huseful hj
    · exact htrade.useful_members hmembers j ((mem_sortedSet compare).mp hj)
  refine ⟨_, ?_, htrade.pruned.change hpruned fun {x} hx => ?_⟩
  · rw [Reduction.reduceState, hrun]
    rfl
  · rwa [state_withEpsilon (hi.trans_le htrade.pruned.size_le)]

/-- **Reducing closures one after the other.** -/
lemma pruned_foldlM_reduceState : ∀ (is : List Nat) {r : Reduction}, r.Pruned n →
    (∀ i ∈ is, i < n) → ∃ r', is.foldlM Reduction.reduceState r = .ok r' ∧ r'.Pruned n
  | [], r, h, _ => ⟨r, rfl, h⟩
  | i :: is, r, h, his => by
    obtain ⟨r₁, hrun, h₁⟩ := pruned_reduceState h (his i List.mem_cons_self)
    obtain ⟨r', hrun', h'⟩ :=
      pruned_foldlM_reduceState is h₁ fun x hx => his x (List.mem_cons_of_mem i hx)
    refine ⟨r', ?_, h'⟩
    rw [List.foldlM_cons, hrun]
    exact hrun'

end

/-! ## Closing again -/

section

variable {n : Nat} {a b : Automaton}

/-- Nothing else is reached from a useful state. -/
lemma Automaton.Pruned.eq_of_reaches (h : b.Pruned n) {t u : Nat} (ht : (b.state t).isUseful)
    (htu : b.Reaches t u) : u = t := by
  induction htu with
  | refl => rfl
  | tail _ hstep ih =>
    subst ih
    exact h.alone ht hstep

/-- **Closing the new states leaves nothing to be closed**, if the closures of the old ones are pruned
and their kinds are not above those of their members.

**Proof sketch.** An epsilon move of the closed automaton was there or has been found by the search. The
states found are useful; so they lead nowhere else, and no more can be found from them. -/
theorem Automaton.Pruned.settled (h : b.Pruned n) (hr : b.InRange)
    (hkind : ∀ {i t k}, i < n → b.Silent i t → (b.state t).kind = some k →
      ∃ j ≤ k, (b.state i).kind = some j) : (b.closeFrom n).Settled := by
  have hlt : ∀ {i t}, (b.closeFrom n).Silent i t → i < b.size := fun hit =>
    size_closeFrom b n ▸ lt_size_of_silent hit
  have hreach : ∀ {i t}, (b.closeFrom n).Silent i t → b.Reaches i t := by
    intro i t hit
    rcases b.state_closeFrom n i with heq | ⟨-, -, heq⟩ <;> rw [Silent, heq] at hit
    · exact .single hit
    · exact reaches_of_mem_closed hr hit
  have huseful : ∀ {i t}, (b.closeFrom n).Silent i t → (b.state t).isUseful := by
    intro i t hit
    rcases Nat.lt_or_ge i n with hi | hi
    · rw [Silent, state_closeFrom_of_lt hi] at hit
      exact h.useful hi hit
    · rcases (silent_closeFrom hr hi (hlt hit)).mp hit with ⟨rfl, hm⟩ | ⟨-, hu, -⟩
      · simp [State.isUseful, hm]
      · exact hu
  have hkind_eq : ∀ {t}, (b.state t).isUseful →
      ((b.closeFrom n).state t).kind = (b.state t).kind := by
    intro t ht
    rcases b.state_closeFrom n t with heq | ⟨-, -, heq⟩ <;> rw [heq]
    refine (lowestKind_closed hr).unique (lowestKind_single _) ?_ fun k hk => ⟨k, le_rfl, t, .refl, hk⟩
    rintro k ⟨u, htu, hk⟩
    exact ⟨k, le_rfl, h.eq_of_reaches ht htu ▸ hk⟩
  refine ⟨fun {i} hi' => ?_, fun {i} hi' => ?_, fun {i t} hit => ?_, fun {i t u} hit htu _ => ?_,
    fun {i t k} hit hk => ?_⟩
  · rcases Nat.lt_or_ge i n with hi | hi
    · rw [state_closeFrom_of_lt hi]
      exact h.ascending hi
    · rw [size_closeFrom] at hi'
      rw [state_closeFrom_of_le hi hi']
      exact ascending_sortedSet _
  · rw [hasMoves_closeFrom]
    rcases Nat.lt_or_ge i n with hi | hi
    · rw [Silent, state_closeFrom_of_lt hi]
      exact h.self hi
    · rw [size_closeFrom] at hi'
      rw [silent_closeFrom hr hi hi']
      simp
  · rw [isUseful_closeFrom]
    exact huseful hit
  · rw [h.eq_of_reaches (huseful hit) (hreach htu)]
    exact hit
  · rw [hkind_eq (huseful hit)] at hk
    rcases Nat.lt_or_ge i n with hi | hi
    · rw [Silent, state_closeFrom_of_lt hi] at hit
      rw [state_closeFrom_of_lt hi]
      exact hkind hi hit hk
    · rw [state_closeFrom_of_le hi (hlt hit)]
      exact (lowestKind_closed hr).le ⟨t, hreach hit, hk⟩

/-- The closures of an automaton of sharp states are pruned. -/
lemma Automaton.Sharp.pruned_close (h : a.Sharp) (ha : a.InRange) :
    a.close.Pruned a.close.size := by
  have hsettled := settled_close ha
  refine ⟨le_rfl, fun {i t} hi hit => ?_, fun _ => hsettled.useful, hsettled.self,
    hsettled.ascending⟩
  rw [close, isUseful_closeFrom] at hi
  rcases (silent_close ha (size_close a ▸ lt_size_of_silent hit)).mp hit with ⟨rfl, -⟩ | ⟨hne, -, hit⟩
  · rfl
  · have hstuck : ∀ u, ¬ a.Silent i u := by simp [Silent, h i hi]
    rcases hit.cases_head with rfl | ⟨u, hu, -⟩
    · rfl
    · exact absurd hu (hstuck u)

/-- The kind of an old state is not above the kinds in its closure. -/
lemma Reduced.kind_of_silent {μ : Meaning} (h : Reduced a b μ) {i t k : Nat} (hi : i < a.size)
    (hit : b.Silent i t) (hk : (b.state t).kind = some k) : ∃ j ≤ k, (b.state i).kind = some j := by
  obtain ⟨o, ho, j, hj, hk⟩ := h.kind hk
  obtain ⟨x, hx, hbelow⟩ := h.silent hit ho
  obtain rfl := (h.stands_old hi).mp hx
  obtain ⟨l, hl, hk⟩ := hbelow.kind hk
  exact ⟨l, hl.trans hj, (h.kind_old hi).trans hk⟩

/-- **What closing and reducing make of an automaton of sharp states** is settled.

**Proof sketch.** Without reduction the automaton is closed once, which settles it. With reduction the
old states keep pruned closures, and the closing of the new ones leaves nothing to be closed. -/
lemma Automaton.Sharp.settled_closures (h : a.Sharp) (ha : a.InRange) {reduced : Bool}
    (hrun : a.closures reduced = .ok b) : b.Settled ∧ b.InRange := by
  cases reduced with
  | false =>
    obtain rfl := Except.ok.inj hrun
    exact ⟨settled_close ha, ha.closeFrom 0⟩
  | true =>
    have hplaces : ∀ i ∈ List.range a.close.size, i < a.close.size := fun i => List.mem_range.mp
    obtain ⟨r, hfold, hpruned⟩ := pruned_foldlM_reduceState (List.range a.close.size)
      (r := ⟨a.close, {}⟩) ⟨h.pruned_close ha, fun hget => by cases hget⟩ hplaces
    obtain ⟨r', μ, hfold', hsound⟩ := sound_foldlM_reduceState (List.range a.close.size)
      (r := ⟨a.close, {}⟩) ⟨Reduced.initial (closed_close ha), fun hget => by cases hget⟩ hplaces
    obtain rfl : r = r' := by
      rw [hfold] at hfold'
      exact Except.ok.inj hfold'
    rw [closures, if_pos rfl, reduce, hfold] at hrun
    obtain rfl := Except.ok.inj hrun
    exact ⟨hpruned.settled hsound.inRange hsound.kind_of_silent,
      hsound.inRange.closeFrom _⟩

end

/-! ## The automata of a scanner -/

namespace Lexer

/-- The lexical states of a scanner have been built one by one. -/
lemma exists_of_mem_buildStates : ∀ (modes : List Nat) {g g' : Grammar} {ctx ctx' : Context}
    {states : List LexicalState}, buildStates g ctx modes = (.ok states, g', ctx') →
    ∀ s ∈ states, ∃ g₁ ctx₁ mode left, buildState g₁ ctx₁ mode = (.ok s, left)
  | [], _, _, _, _, _, h, s, hs => by
    cases h
    cases hs
  | mode :: modes, g, g', ctx, ctx', states, h, s, hs => by
    obtain ⟨s₁, ss, g₁, ctx₁, hone, hrest, rfl⟩ := buildStates_cons_eq_ok h
    rcases List.mem_cons.mp hs with rfl | hs
    · exact ⟨g, ctx, mode, _, hone⟩
    · exact exists_of_mem_buildStates modes hrest s hs

/-- **The automaton of a lexical state is settled**, whether it has been reduced or not. -/
lemma settled_buildState {g : Grammar} {ctx : Context} {mode : Nat} {s : LexicalState}
    {left : Grammar × Context} (h : buildState g ctx mode = (.ok s, left)) :
    s.automaton.Settled ∧ s.automaton.InRange := by
  obtain ⟨t, hadd, hfinish, -, -⟩ := buildState_eq_ok h
  obtain ⟨hclosures, -, -, -⟩ := finishState_eq_ok hfinish
  have hstart := sharpStart_addAll ctx.options _ hadd SharpStart.empty
  obtain ⟨ps, hbegins⟩ := hstart.begins
  exact hstart.sharp.settled_closures hbegins.toInRange hclosures

/-- **Closing the automata of a scanner again changes nothing.** Let the scanner of any grammar be
built, with its automata reduced or not. Then closing the automaton of one of its lexical states once
more gives the same automaton: what was merged away does not come back.

**Proof sketch.** Each state of the scanner is made of an automaton of tokens, which is sharp; what
closing and reducing make of it is settled, and closing it again changes nothing. -/
theorem build_closed_again {g g' : Grammar} {ctx ctx' : Context} {lexer : Lexer}
    (h : build g ctx = (.ok lexer, g', ctx')) :
    ∀ s ∈ lexer.states, s.automaton.closures false = .ok s.automaton := by
  rw [build] at h
  rcases hstates : buildStates g ctx (List.range g.lexicalStates.size) with ⟨_ | states, g₁, ctx₁⟩
  · rw [hstates] at h
    cases h
  · rw [hstates] at h
    cases h
    intro s hs
    obtain ⟨g₂, ctx₂, mode, left, hone⟩ :=
      exists_of_mem_buildStates _ hstates s (List.mem_toArray.mp hs)
    obtain ⟨hsettled, hrange⟩ := settled_buildState hone
    exact congrArg Except.ok (hsettled.close_eq hrange)

/-- Two keywords that begin alike, names that begin like both of them, and one or two letters that do,
too: states are merged because of their moves, and because of their next states. -/
def sharedBeginnings : Grammar :=
  let (_, g) := Grammar.empty.addToken { regex := .literal "let" }
  let (_, g) := g.addToken { regex := .literal "less" }
  let (_, g) := g.addToken { label := some "NAME"
                             regex := .oneOrMore (.chars { items := [.range 'a' 'é'] }) }
  (g.addToken { regex := .sequence [.zeroOrOne (.literal "l"), .literal "l"] }).2

/-- The built automaton of words with shared beginnings differs from the one built without reduction,
and closing it again changes nothing. -/
theorem build_closed_again_sharedBeginnings :
    (build sharedBeginnings {}).1.toOption ≠
        (build sharedBeginnings { options := { reduceStates := false } }).1.toOption ∧
      ∃ lexer g' ctx', build sharedBeginnings {} = (.ok lexer, g', ctx') ∧
        ∀ s ∈ lexer.states, s.automaton.closures false = .ok s.automaton := by
  refine ⟨by decide +kernel, ?_⟩
  rcases hbuild : build sharedBeginnings {} with ⟨_ | lexer, g', ctx'⟩
  · have hok : (build sharedBeginnings {}).1.toBool := by decide +kernel
    rw [hbuild] at hok
    cases hok
  · exact ⟨lexer, g', ctx', rfl, build_closed_again hbuild⟩

end Lexer

end GrammarForge
