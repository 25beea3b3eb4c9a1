import GrammarForge.Automaton.Reduction
import GrammarForge.Proofs.EpsilonClosure

set_option autoImplicit false

/-!
# Tidy states

Two things are true of every state of an automaton, from the moment its first fragment is built to
the end of its reduction: its kind is one of those that were given to fragments, and its move table is
in order. Here it is shown that closing and reducing keep both: new states get the lowest of kinds that
there are, and their tables are copies and unions of tables in order.

## Main definitions

* `State.Tidy`, `Automaton.Tidy` — states of known kinds whose tables are in order.
* `Gives` — what a result has to be, if there is one.
* `Reduction.firstTwin` — what takes the place of the first of a list of states.

## Main results

* `Automaton.Tidy.closures` — closing and reducing keep states tidy.
* `Automaton.WellFormed.inOrder_closures` — they keep move tables in order.
-/

namespace GrammarForge

/-! ## Tidy states -/

variable {known : Nat → Prop}

/-- The lower of two known kinds is known.

**Proof sketch.** By cases on the two kinds: the lower one is one of both. -/
lemma known_leastKind {k l : Option Nat} (hk : ∀ x ∈ k, known x) (hl : ∀ x ∈ l, known x) :
    ∀ x ∈ leastKind k l, known x := by
  intro x hx
  cases k with
  | none => exact hl x hx
  | some a =>
    cases l with
    | none => exact hk x hx
    | some b =>
      obtain rfl := Option.mem_some_iff.mp hx
      rcases min_choice a b with hmin | hmin
      · rw [hmin]
        exact hk a rfl
      · rw [hmin]
        exact hl b rfl

/-- The lowest kind of several states is known, if all their kinds are. -/
lemma known_foldl_leastKind {α : Type} (f : α → Option Nat) (as : List α) {k : Option Nat}
    (hk : ∀ x ∈ k, known x) (hf : ∀ a ∈ as, ∀ x ∈ f a, known x) :
    ∀ x ∈ as.foldl (fun k a => leastKind k (f a)) k, known x :=
  List.foldlRecOn (motive := fun l : Option Nat => ∀ x ∈ l, known x) as _ hk
    fun _ hl a ha => known_leastKind hl (hf a ha)

/-- **A tidy state**: its kind is `known`, and its move table is in order. -/
structure State.Tidy (known : Nat → Prop) (s : State) : Prop where
  kind : ∀ k ∈ s.kind, known k
  moves : s.moves.InOrder

namespace State.Tidy

variable {s s' : State}

/-- A new state is tidy. -/
lemma empty : ({} : State).Tidy known := ⟨fun _ hk => absurd hk (Option.not_mem_none _), .empty⟩

/-- Only the kind and the moves matter. -/
lemma of_eq (h : s.Tidy known) (hkind : s'.kind = s.kind) (hmoves : s'.moves = s.moves) :
    s'.Tidy known := by
  refine ⟨?_, ?_⟩
  · rw [hkind]
    exact h.kind
  · rw [hmoves]
    exact h.moves

/-- A tidy state stays tidy when it takes the moves and the kind of another one. -/
lemma absorb (h : s.Tidy known) (h' : s'.Tidy known) : (s.absorb s').Tidy known :=
  ⟨known_leastKind h.kind h'.kind, h.moves.union s'.moves⟩

end State.Tidy

/-- All states of an automaton are tidy. -/
def Automaton.Tidy (known : Nat → Prop) (a : Automaton) : Prop := ∀ i, (a.state i).Tidy known

namespace Automaton.Tidy

variable {a : Automaton}

/-- Without states there is nothing to be tidy. -/
lemma empty : ({} : Automaton).Tidy known := fun _ => State.Tidy.empty

/-- A tidy state is added. -/
lemma push (h : a.Tidy known) {s : State} (hs : s.Tidy known) : (a.push s).Tidy known := by
  intro i
  rw [state, Automaton.push, getD_push]
  split_ifs
  · exact hs
  · exact h i

/-- A state is changed to a tidy one. -/
lemma modify (h : a.Tidy known) {i : Nat} {f : State → State}
    (hf : (a.state i).Tidy known → (f (a.state i)).Tidy known) : (a.modify i f).Tidy known := by
  intro j
  by_cases hij : i = j
  · subst hij
    rcases Nat.lt_or_ge i a.size with hi | hi
    · rw [state_modify_self f hi]
      exact hf (h i)
    · rw [state_of_size_le (by simpa using hi)]
      exact State.Tidy.empty
  · rw [state_modify_of_ne f hij]
    exact h j

/-- A change that concerns neither kinds nor moves. -/
lemma modify_of_eq (h : a.Tidy known) (i : Nat) {f : State → State}
    (hkind : ∀ s, (f s).kind = s.kind) (hmoves : ∀ s, (f s).moves = s.moves) :
    (a.modify i f).Tidy known :=
  h.modify fun hi => hi.of_eq (hkind _) (hmoves _)

/-- Two empty states are added. -/
lemma newFragment (h : a.Tidy known) : a.newFragment.2.Tidy known :=
  (h.push State.Tidy.empty).push State.Tidy.empty

end Automaton.Tidy

/-! ## Closing and reducing -/

/-- What a computation gives satisfies `P`, if it gives anything. -/
def Gives {α : Type} (P : α → Prop) (x : Except CompileError α) : Prop := ∀ a, x = .ok a → P a

namespace Gives

variable {α β : Type} {P : α → Prop} {Q : β → Prop}

/-- A result gives what is known of it. -/
lemma ok {a : α} (h : P a) : Gives P (.ok a) := by
  intro b hb
  obtain rfl := Except.ok.inj hb
  exact h

/-- Two computations that give something are put one after the other. -/
lemma bind {x : Except CompileError α} {f : α → Except CompileError β} (hx : Gives P x)
    (hf : ∀ a, P a → Gives Q (f a)) : Gives Q (x >>= f) := by
  cases x with
  | error e =>
    intro b hb
    cases hb
  | ok a => exact hf a (hx a rfl)

/-- What every step of a fold gives, the whole fold gives. -/
lemma foldlM {f : α → β → Except CompileError α} (hf : ∀ a b, P a → Gives P (f a b)) :
    ∀ (bs : List β) {a : α}, P a → Gives P (bs.foldlM f a)
  | [], _, ha => ok ha
  | b :: bs, a, ha => by
    rw [List.foldlM_cons]
    exact (hf a b ha).bind fun a' ha' => foldlM hf bs ha'

end Gives

namespace Automaton.Tidy

variable {a : Automaton}

/-- Closing from one state changes only epsilon sets. -/
lemma closeFrom (h : a.Tidy known) (start : Nat) : (a.closeFrom start).Tidy known := by
  intro i
  rcases a.state_closeFrom start i with hi | ⟨-, -, hi⟩
  · rw [hi]
    exact h i
  · rw [hi]
    exact ⟨known_foldl_leastKind _ _ (h i).kind fun j _ => (h j).kind, (h i).moves⟩

/-- Adding the two states for states with equal moves keeps all states tidy.

**Proof sketch.** The first one has the moves of the first member and the lowest kind of all members,
and the second one has neither moves nor a kind. -/
lemma addTwinState (h : a.Tidy known) (members : List Nat) :
    (Reduction.addTwinState a members).2.Tidy known := by
  have hmembers : ∀ s ∈ members.map a.state, s.Tidy known := by
    intro s hs
    obtain ⟨i, -, rfl⟩ := List.mem_map.mp hs
    exact h i
  have hbase : ((members.map a.state).head?.getD {}).Tidy known := by
    cases hhead : (members.map a.state).head? with
    | none => exact State.Tidy.empty
    | some s => exact hmembers s (List.mem_of_head? hhead)
  unfold Reduction.addTwinState
  refine Automaton.Tidy.push (Automaton.Tidy.push h ?_) ?_
  · exact ⟨known_foldl_leastKind _ _ hbase.kind fun s hs => (hmembers s hs).kind, hbase.moves⟩
  · exact State.Tidy.empty.of_eq rfl rfl

/-- Merging the moves of a state keeps tidy states tidy. -/
lemma mergeMoves (h : a.Tidy known) (target source : Nat) :
    Gives (Automaton.Tidy known) (a.mergeMoves target source) := by
  unfold Automaton.mergeMoves
  split_ifs
  · intro b hb
    cases hb
  · exact Gives.ok (h.modify fun ht => ht.absorb (h source))

end Automaton.Tidy

/-- The state that takes the place of the first of a list: itself, if no other one moves like
it, and else the state for all of these. -/
def Reduction.firstTwin (r : Reduction) (i : Nat) (rest : List Nat) : Nat × Reduction :=
  let twins := rest.filter (areTwins r.automaton i)
  if twins.isEmpty then (i, r) else r.twinState (sortedSet compare (i :: twins))

/-- A state that moves like an earlier one is left out. -/
lemma mergeTwins_cons_of_any {r : Reduction} {i : Nat} {earlier rest : List Nat}
    (h : earlier.any (Reduction.areTwins r.automaton · i)) :
    r.mergeTwins earlier (i :: rest) = r.mergeTwins (i :: earlier) rest := by
  rw [Reduction.mergeTwins, if_pos h]

/-- A state that moves like no earlier one is replaced, and then the rest of the list is. -/
lemma mergeTwins_cons_of_not_any {r : Reduction} {i : Nat} {earlier rest : List Nat}
    (h : ¬ earlier.any (Reduction.areTwins r.automaton · i)) :
    r.mergeTwins earlier (i :: rest) =
      ((r.firstTwin i rest).1 :: ((r.firstTwin i rest).2.mergeTwins (i :: earlier) rest).1,
        ((r.firstTwin i rest).2.mergeTwins (i :: earlier) rest).2) := by
  rw [Reduction.mergeTwins, if_neg h]
  rfl

/-- The states of an automaton that is being reduced are tidy. -/
def Reduction.Tidy (known : Nat → Prop) (r : Reduction) : Prop := r.automaton.Tidy known

namespace Reduction.Tidy

variable {r : Reduction}

/-- The state found or added for states with equal moves keeps all states tidy. -/
lemma twinState (h : r.Tidy known) (members : List Nat) : (r.twinState members).2.Tidy known := by
  unfold Reduction.twinState
  cases r.merged.get? members with
  | some i => exact h
  | none => exact Automaton.Tidy.addTwinState h members

/-- So does the first round of merging states with equal moves. -/
lemma firstTwin (h : r.Tidy known) (i : Nat) (rest : List Nat) :
    (r.firstTwin i rest).2.Tidy known := by
  unfold Reduction.firstTwin
  dsimp only
  split_ifs
  · exact h
  · exact h.twinState _

/-- Merging states with equal moves keeps all states tidy.

**Proof sketch.** Induction on the states that are merged, as the recursion goes. -/
lemma mergeTwins : ∀ (members earlier : List Nat) {r : Reduction}, r.Tidy known →
    (r.mergeTwins earlier members).2.Tidy known
  | [], _, _, h => h
  | i :: rest, earlier, r, h => by
    by_cases hany : earlier.any (areTwins r.automaton · i)
    · rw [mergeTwins_cons_of_any hany]
      exact mergeTwins rest (i :: earlier) h
    · rw [mergeTwins_cons_of_not_any hany]
      exact mergeTwins rest (i :: earlier) (h.firstTwin i rest)

/-- Making a joint state keeps all states tidy. -/
lemma addJointState (h : r.Tidy known) (i : Nat) (others : List Nat) :
    Gives (fun x => x.2.Tidy known) (r.addJointState i others) := by
  have hpush : (r.automaton.push (r.automaton.state i).withoutEpsilon).Tidy known :=
    Automaton.Tidy.push h ((h i).of_eq rfl rfl)
  have hmerged := Gives.foldlM (fun b source hb => Automaton.Tidy.mergeMoves hb r.automaton.size source)
    others hpush
  exact hmerged.bind fun b hb => Gives.ok hb

/-- Merging states with the same next state keeps all states tidy.

**Proof sketch.** Induction on the states that are merged, along the three cases of the recursion. -/
lemma mergeByNext : ∀ (members earlier : List Nat) {r : Reduction}, r.Tidy known →
    Gives (fun x => x.2.Tidy known) (r.mergeByNext earlier members)
  | [], _, _, h => Gives.ok h
  | i :: rest, earlier, r, h => by
    unfold Reduction.mergeByNext
    dsimp only
    split_ifs
    · exact mergeByNext rest (i :: earlier) h
    · exact (mergeByNext rest (i :: earlier) h).bind fun _ hx => Gives.ok hx
    · exact (h.addJointState i _).bind fun x hx =>
        (mergeByNext rest (i :: earlier) hx).bind fun _ hy => Gives.ok hy

/-- One round of merging keeps all states tidy. -/
lemma mergeOnce (h : r.Tidy known) (members : List Nat) :
    Gives (fun x => x.2.Tidy known) (r.mergeOnce members) :=
  (mergeByNext _ [] (mergeTwins members [] h)).bind fun _ hx => Gives.ok hx

/-- **Rounds of merging keep states tidy**, by induction on the number of states that are left.

**Proof sketch.** A round keeps the states tidy; if it leaves fewer states, the next rounds do so too.
-/
lemma mergeAll (members : List Nat) : ∀ {r : Reduction}, r.Tidy known →
    Gives (fun x => x.2.Tidy known) (r.mergeAll members) := by
  induction hlen : members.length using Nat.strong_induction_on generalizing members with
  | _ n ih =>
    intro r h
    have honce := h.mergeOnce members
    rw [Reduction.mergeAll]
    cases hrun : r.mergeOnce members with
    | error e =>
      intro x hx
      cases hx
    | ok x =>
      obtain ⟨members', r'⟩ := x
      have hr' : r'.Tidy known := honce _ hrun
      dsimp only
      split_ifs with hlt
      · exact ih members'.length (hlen ▸ hlt) members' rfl hr'
      · exact Gives.ok hr'

/-- Reducing the epsilon set of a state keeps all states tidy. -/
lemma reduceState (h : r.Tidy known) (i : Nat) : Gives (Tidy known) (r.reduceState i) := by
  refine (mergeAll _ h).bind fun x hx => Gives.ok ?_
  exact Automaton.Tidy.modify_of_eq hx i (fun _ => rfl) fun _ => rfl

end Reduction.Tidy

/-- **Closing and reducing keep states tidy.** -/
lemma Automaton.Tidy.closures {a : Automaton} (h : a.Tidy known) (reduced : Bool) :
    Gives (Automaton.Tidy known) (a.closures reduced) := by
  have hclose : a.close.Tidy known := h.closeFrom 0
  cases reduced with
  | false => exact Gives.ok hclose
  | true =>
    have hstart : (⟨a.close, {}⟩ : Reduction).Tidy known := hclose
    have hfold := Gives.foldlM (fun r i hr => Reduction.Tidy.reduceState hr i)
      (List.range a.close.size) hstart
    exact hfold.bind fun r hr => Gives.ok (Automaton.Tidy.closeFrom hr _)

/-- **Closing and reducing keep move tables in order.** -/
lemma Automaton.WellFormed.inOrder_closures {a b : Automaton} (h : a.WellFormed) {reduced : Bool}
    (hb : a.closures reduced = .ok b) (i : Nat) : (b.state i).moves.InOrder := by
  have htidy : a.Tidy fun _ => True := fun j => ⟨fun _ _ => trivial, h.inOrder j⟩
  exact (htidy.closures reduced b hb i).moves

end GrammarForge
