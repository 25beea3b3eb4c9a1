import GrammarForge.Proofs.ReductionInvariant

set_option autoImplicit false

/-!
# Merged states

Merging adds states to an automaton that stand for those that are merged: a joint state for
states with the same next state, and a twin with a next state of its own for states that move on
the same characters. An added state leads to everything that the merged ones led to, and stands
for nothing else; so it can take their place, and the invariant of a reduction is kept.

## Main definitions

* `Grows` — states are added, and those there were are kept.
* `Offers` — a state moves on a character to a state that stands for a given one.
* `Replaces` — one list of states can take the place of another one.
* `Sound` — the invariant, with the merged states remembered so far.
* `Merges` — what a step of merging does.

## Main results

* `Reduced.grow` — adding states keeps the invariant, if it holds of them.
* `addJointState_eq_ok` — a joint state is always made.
* `AddsJoint.merges`, `AddsTwin.merges` — an added state can take the place of those merged.
-/

namespace GrammarForge

open Automaton

/-! ## Growth -/

/-- States have been added to `r`; those there were keep what they do and what they mean. -/
structure Grows (r r' : Automaton) (μ μ' : Meaning) : Prop where
  size_le : r.size ≤ r'.size
  state : ∀ {i}, i < r.size → r'.state i = r.state i
  stands : ∀ {i o}, i < r.size → (μ'.stands i o ↔ μ.stands i o)
  place : ∀ {i}, i < r.size → (μ'.place i ↔ μ.place i)

namespace Grows

variable {r r' r'' : Automaton} {μ μ' μ'' : Meaning}

/-- Nothing is added. -/
lemma refl (r : Automaton) (μ : Meaning) : Grows r r μ μ :=
  ⟨le_rfl, fun _ => rfl, fun _ => Iff.rfl, fun _ => Iff.rfl⟩

/-- What has been added stays when more is added. -/
lemma trans (h : Grows r r' μ μ') (h' : Grows r' r'' μ' μ'') : Grows r r'' μ μ'' where
  size_le := h.size_le.trans h'.size_le
  state hi := (h'.state (hi.trans_le h.size_le)).trans (h.state hi)
  stands hi := (h'.stands (hi.trans_le h.size_le)).trans (h.stands hi)
  place hi := (h'.place (hi.trans_le h.size_le)).trans (h.place hi)

/-- After growth a state is an old one, a new one, or there is none at its place. -/
lemma cases (h : Grows r r' μ μ') (y : Nat) :
    (y < r.size ∧ r'.state y = r.state y) ∨ (r.size ≤ y ∧ y < r'.size) ∨ r'.state y = {} := by
  rcases Nat.lt_or_ge y r.size with hlt | hge
  · exact Or.inl ⟨hlt, h.state hlt⟩
  · rcases Nat.lt_or_ge y r'.size with hlt' | hge'
    · exact Or.inr (Or.inl ⟨hge, hlt'⟩)
    · exact Or.inr (Or.inr (state_of_size_le hge'))

/-- An automaton that grows keeps its moves in range, if those of its new states are.

**Proof sketch.** By the three kinds of places: an old state is as it was, and its moves stay in range
as the automaton grows; for a new state it is a hypothesis; and beyond the end there are no moves. -/
lemma inRange (h : Grows r r' μ μ') (hr : r.InRange)
    (epsilon : ∀ {y}, r.size ≤ y → y < r'.size → ∀ z ∈ (r'.state y).epsilon, z < r'.size)
    (next : ∀ {y m}, r.size ≤ y → y < r'.size → (r'.state y).next = some m → m < r'.size) :
    r'.InRange := by
  refine ⟨?_, ?_⟩
  · intro y z hz
    rcases h.cases y with ⟨-, heq⟩ | ⟨hge, hlt⟩ | heq
    · rw [heq] at hz
      exact (hr.epsilon y z hz).trans_le h.size_le
    · exact epsilon hge hlt z hz
    · simp [heq] at hz
  · intro y m hm
    rcases h.cases y with ⟨-, heq⟩ | ⟨hge, hlt⟩ | heq
    · rw [heq] at hm
      exact (hr.next y m hm).trans_le h.size_le
    · exact next hge hlt hm
    · simp [heq] at hm

end Grows

/-- **Adding states keeps the invariant**, if it holds of the new states.

**Proof sketch.** Every condition of the invariant speaks of one state. An old state is as it was and
stands for what it stood for, so that its condition carries over; a new state has the conditions as
hypotheses; and beyond the end nothing is to be shown. -/
lemma Reduced.grow {a r r' : Automaton} {μ μ' : Meaning} (h : Reduced a r μ)
    (hg : Grows r r' μ μ') (hrange : r'.InRange)
    (place_lt : ∀ {y}, r.size ≤ y → μ'.place y → y < r'.size)
    (silent : ∀ {y z o}, r.size ≤ y → y < r'.size → r'.Silent y z → μ'.stands z o →
      ∃ x, μ'.stands y x ∧ a.Below x o)
    (moves : ∀ {y c m o}, r.size ≤ y → y < r'.size → (r'.state y).moves.has c →
      (r'.state y).next = some m → μ'.stands m o →
      ∃ x, μ'.stands y x ∧ (a.state x).moves.has c ∧ (a.state x).next = some o)
    (kind : ∀ {y k}, r.size ≤ y → y < r'.size → (r'.state y).kind = some k →
      ∃ x, μ'.stands y x ∧ ∃ j ≤ k, (a.state x).kind = some j)
    (place_next : ∀ {y m}, r.size ≤ y → y < r'.size → (r'.state y).next = some m → μ'.place m)
    (place_new : ∀ {y o}, r.size ≤ y → μ'.place y → μ'.stands y o →
      ∃ z < y, r'.Silent y z ∧ μ'.place z ∧ μ'.stands z o) :
    Reduced a r' μ' where
  inRange := hrange
  size_le := h.size_le.trans hg.size_le
  moves_old hi := by rw [hg.state (hi.trans_le h.size_le), h.moves_old hi]
  next_old hi := by rw [hg.state (hi.trans_le h.size_le), h.next_old hi]
  kind_old hi := by rw [hg.state (hi.trans_le h.size_le), h.kind_old hi]
  stands_old hi := (hg.stands (hi.trans_le h.size_le)).trans (h.stands_old hi)
  place_old hi := (hg.place (hi.trans_le h.size_le)).mpr (h.place_old hi)
  place_lt := by
    intro y hy
    rcases Nat.lt_or_ge y r.size with hlt | hge
    · exact hlt.trans_le hg.size_le
    · exact place_lt hge hy
  silent := by
    intro y z o hyz ho
    rcases hg.cases y with ⟨hlt, heq⟩ | ⟨hge, hlt⟩ | heq
    · rw [Silent, heq] at hyz
      have hz := h.inRange.epsilon y z hyz
      obtain ⟨x, hx, hbelow⟩ := h.silent hyz ((hg.stands hz).mp ho)
      exact ⟨x, (hg.stands hlt).mpr hx, hbelow⟩
    · exact silent hge hlt hyz ho
    · simp [Silent, heq] at hyz
  moves := by
    intro y c m o hc hm ho
    rcases hg.cases y with ⟨hlt, heq⟩ | ⟨hge, hlt⟩ | heq
    · rw [heq] at hc hm
      have hmlt := h.inRange.next y m hm
      obtain ⟨x, hx, hxc, hxo⟩ := h.moves hc hm ((hg.stands hmlt).mp ho)
      exact ⟨x, (hg.stands hlt).mpr hx, hxc, hxo⟩
    · exact moves hge hlt hc hm ho
    · simp [heq] at hm
  kind := by
    intro y k hk
    rcases hg.cases y with ⟨hlt, heq⟩ | ⟨hge, hlt⟩ | heq
    · rw [heq] at hk
      obtain ⟨x, hx, hj⟩ := h.kind hk
      exact ⟨x, (hg.stands hlt).mpr hx, hj⟩
    · exact kind hge hlt hk
    · simp [heq] at hk
  place_next := by
    intro y m hm
    rcases hg.cases y with ⟨hlt, heq⟩ | ⟨hge, hlt⟩ | heq
    · rw [heq] at hm
      exact (hg.place (h.inRange.next y m hm)).mpr (h.place_next hm)
    · exact place_next hge hlt hm
    · simp [heq] at hm
  complete := by
    rintro s c o hs hgo
    obtain ⟨m, ⟨t, ht, hc, hm⟩, hmo⟩ := h.complete hs hgo
    have htlt := h.inRange.epsilon s t ht
    refine ⟨m, ⟨t, ?_, ?_, ?_⟩, (hg.stands (h.inRange.next t m hm)).mpr hmo⟩
    · rwa [hg.state (hs.trans_le h.size_le)]
    · rwa [hg.state htlt]
    · rwa [hg.state htlt]
  place_new := by
    intro y o hge hy ho
    rcases Nat.lt_or_ge y r.size with hlt | hge'
    · obtain ⟨z, hzy, hyz, hz, hzo⟩ :=
        h.place_new hge ((hg.place hlt).mp hy) ((hg.stands hlt).mp ho)
      have hzlt := hzy.trans hlt
      refine ⟨z, hzy, ?_, (hg.place hzlt).mpr hz, (hg.stands hzlt).mpr hzo⟩
      rwa [Silent, hg.state hlt]
    · exact place_new hge' hy ho

/-! ## Replacing lists of states -/

/-- The state `i` moves on `c` to a state that stands for `o`. -/
def Offers (r : Automaton) (μ : Meaning) (i : Nat) (c : Char) (o : Nat) : Prop :=
  (r.state i).moves.has c ∧ ∃ m, (r.state i).next = some m ∧ μ.stands m o

/-- The states `js` can take the place of `is`: they stand for nothing else, and move wherever
those move. -/
structure Replaces (r : Automaton) (μ : Meaning) (is js : List Nat) : Prop where
  lt : ∀ j ∈ js, j < r.size
  stands : ∀ j ∈ js, ∀ {o}, μ.stands j o → ∃ i ∈ is, μ.stands i o
  offers : ∀ i ∈ is, ∀ {c o}, Offers r μ i c o → ∃ j ∈ js, Offers r μ j c o

/-- An old state offers the same moves as before. -/
lemma Grows.offers {r r' : Automaton} {μ μ' : Meaning} (hg : Grows r r' μ μ') (hr : r.InRange)
    {i o : Nat} {c : Char} (hi : i < r.size) : Offers r' μ' i c o ↔ Offers r μ i c o := by
  rw [Offers, Offers, hg.state hi]
  refine and_congr_right fun _ => exists_congr fun m => and_congr_right fun hm => ?_
  exact hg.stands (hr.next i m hm)

namespace Replaces

variable {r r' : Automaton} {μ μ' : Meaning} {is js ks : List Nat}

/-- States replace themselves. -/
lemma refl (h : ∀ i ∈ is, i < r.size) : Replaces r μ is is :=
  ⟨h, fun j hj _ ho => ⟨j, hj, ho⟩, fun i hi _ _ ho => ⟨i, hi, ho⟩⟩

/-- What replaces states can be replaced in turn. -/
lemma trans (h : Replaces r μ is js) (h' : Replaces r μ js ks) : Replaces r μ is ks where
  lt := h'.lt
  stands := by
    intro k hk o ho
    obtain ⟨j, hj, hjo⟩ := h'.stands k hk ho
    exact h.stands j hj hjo
  offers := by
    intro i hi c o ho
    obtain ⟨j, hj, hjo⟩ := h.offers i hi ho
    exact h'.offers j hj hjo

/-- Growth does not matter to lists of states that were there before. -/
lemma grow (h : Replaces r μ is js) (hr : r.InRange) (hi : ∀ i ∈ is, i < r.size)
    (hg : Grows r r' μ μ') : Replaces r' μ' is js where
  lt j hj := (h.lt j hj).trans_le hg.size_le
  stands := by
    intro j hj o ho
    obtain ⟨i, hmem, hio⟩ := h.stands j hj ((hg.stands (h.lt j hj)).mp ho)
    exact ⟨i, hmem, (hg.stands (hi i hmem)).mpr hio⟩
  offers := by
    intro i hmem c o ho
    obtain ⟨j, hj, hjo⟩ := h.offers i hmem ((hg.offers hr (hi i hmem)).mp ho)
    exact ⟨j, hj, (hg.offers hr (h.lt j hj)).mpr hjo⟩

end Replaces

/-! ## Steps of merging -/

/-- The invariant of a reduction, with the merged states remembered so far: each can take the
place of the states it was made for. -/
structure Sound (a : Automaton) (r : Reduction) (μ : Meaning) : Prop
    extends Reduced a r.automaton μ where
  merged : ∀ {is i}, r.merged.get? is = some i →
    (∀ x ∈ is, x < r.automaton.size) ∧ Replaces r.automaton μ is [i]

/-- A step of merging that replaced `is` by `js`. -/
structure Merges (a : Automaton) (r r' : Reduction) (μ μ' : Meaning) (is js : List Nat) : Prop where
  sound : Sound a r' μ'
  grows : Grows r.automaton r'.automaton μ μ'
  replaces : Replaces r'.automaton μ' is js

variable {a : Automaton} {r r' r'' : Reduction} {μ μ' μ'' : Meaning} {is js ks : List Nat}

/-- Nothing is merged. -/
lemma Merges.refl (h : Sound a r μ) (hi : ∀ i ∈ is, i < r.automaton.size) :
    Merges a r r μ μ is is :=
  ⟨h, Grows.refl _ _, Replaces.refl hi⟩

/-- Merging goes on with the states that merging has left. -/
lemma Merges.trans (h : Merges a r r' μ μ' is js) (h' : Merges a r' r'' μ' μ'' js ks)
    (hi : ∀ i ∈ is, i < r.automaton.size) : Merges a r r'' μ μ'' is ks where
  sound := h'.sound
  grows := h.grows.trans h'.grows
  replaces :=
    (h.replaces.grow h.sound.inRange
      (fun i hmem => (hi i hmem).trans_le h.grows.size_le) h'.grows).trans h'.replaces

/-- Growth keeps the merged states remembered so far. -/
lemma Sound.grow (h : Sound a r μ) {b : Automaton} (hg : Grows r.automaton b μ μ')
    (hred : Reduced a b μ') : Sound a { r with automaton := b } μ' where
  toReduced := hred
  merged := by
    intro is i hget
    obtain ⟨hlt, hrep⟩ := h.merged hget
    exact ⟨fun x hx => (hlt x hx).trans_le hg.size_le,
      hrep.grow h.inRange hlt hg⟩

/-! ## States with the same next state -/

/-- What a state added at place `n` for the states `is` means: it stands for all that these stand
for, and no move leads to it. -/
def Meaning.addJoint (μ : Meaning) (n : Nat) (is : List Nat) : Meaning where
  stands i o := if i = n then ∃ x ∈ is, μ.stands x o else μ.stands i o
  place := μ.place

/-- A joint state stands for all that its states stand for. -/
lemma Meaning.addJoint_stands_self {n o : Nat} :
    (μ.addJoint n is).stands n o ↔ ∃ x ∈ is, μ.stands x o := by
  simp [addJoint]

/-- Every other state stands for what it stood for. -/
lemma Meaning.addJoint_stands_of_ne {n i o : Nat} (h : i ≠ n) :
    (μ.addJoint n is).stands i o ↔ μ.stands i o := by
  simp [addJoint, h]

/-- The characters that a state holds after absorbing others. -/
lemma foldl_absorb_moves (f : Nat → State) (is : List Nat) : ∀ (s : State) (c : Char),
    (is.foldl (fun s i => s.absorb (f i)) s).moves.has c ↔
      s.moves.has c ∨ ∃ i ∈ is, (f i).moves.has c := by
  induction is with
  | nil => exact fun s c => by simp
  | cons i is ih =>
    intro s c
    rw [List.foldl_cons, ih, State.absorb, MoveTable.has_union]
    simp [or_assoc]

/-- Absorbing states changes neither the next state nor the epsilon moves. -/
lemma foldl_absorb_frame (f : Nat → State) (is : List Nat) : ∀ (s : State),
    (is.foldl (fun s i => s.absorb (f i)) s).next = s.next ∧
      (is.foldl (fun s i => s.absorb (f i)) s).epsilon = s.epsilon := by
  induction is with
  | nil => exact fun s => ⟨rfl, rfl⟩
  | cons i is ih => exact fun s => ih (s.absorb (f i))

/-- The kind of a state after absorbing others. -/
lemma foldl_absorb_kind (f : Nat → State) (is : List Nat) : ∀ (s : State),
    (is.foldl (fun s i => s.absorb (f i)) s).kind =
      is.foldl (fun k i => leastKind k (f i).kind) s.kind := by
  induction is with
  | nil => exact fun s => rfl
  | cons i is ih => exact fun s => ih (s.absorb (f i))

/-- **Merging the moves of other states into the last one never fails.**

**Proof sketch.** Induction on the states that are merged. A merge into the last state changes only this
one and takes the moves of an earlier one, which the following merges find as they were. -/
lemma foldlM_mergeMoves {n : Nat} : ∀ (is : List Nat) (b : Automaton), b.size = n + 1 →
    (∀ i ∈ is, i < n) → ∃ b', is.foldlM (fun b i => b.mergeMoves n i) b = .ok b' ∧
      b'.size = n + 1 ∧ (∀ i < n, b'.state i = b.state i) ∧
      b'.state n = is.foldl (fun s i => s.absorb (b.state i)) (b.state n)
  | [], b, hb, _ => ⟨b, rfl, hb, fun _ _ => rfl, rfl⟩
  | i :: is, b, hb, his => by
    have hi : i < n := his i List.mem_cons_self
    have hstep : b.mergeMoves n i = .ok (b.modify n (·.absorb (b.state i))) := by
      rw [mergeMoves, if_neg (Nat.ne_of_gt hi)]
    obtain ⟨b', hb', hsize, hold, hnew⟩ :=
      foldlM_mergeMoves is (b.modify n (·.absorb (b.state i))) (by simpa using hb)
        fun j hj => his j (List.mem_cons_of_mem i hj)
    have hframe : ∀ j < n, (b.modify n (·.absorb (b.state i))).state j = b.state j :=
      fun j hj => state_modify_of_ne _ (Nat.ne_of_gt hj)
    refine ⟨b', ?_, hsize, fun j hj => (hold j hj).trans (hframe j hj), ?_⟩
    · rw [List.foldlM_cons, hstep]
      exact hb'
    · rw [hnew, state_modify_self _ (by omega), List.foldl_cons]
      refine List.foldl_ext _ _ _ fun s j hj => ?_
      rw [hframe j (his j (List.mem_cons_of_mem i hj))]

/-- The automaton `b'` is `b` with a state added that stands for the states `is`, which have the
same next state, and moves on the characters of all of them. -/
structure AddsJoint (b b' : Automaton) (is : List Nat) : Prop where
  size_eq : b'.size = b.size + 1
  state : ∀ {i}, i < b.size → b'.state i = b.state i
  epsilon : (b'.state b.size).epsilon = []
  next : ∃ i ∈ is, (b'.state b.size).next = (b.state i).next
  moves : ∀ {c}, (b'.state b.size).moves.has c ↔ ∃ i ∈ is, (b.state i).moves.has c
  kind : ∀ {k}, (b'.state b.size).kind = some k → ∃ i ∈ is, (b.state i).kind = some k

/-- **A joint state is always made**, and moves on the characters of all its states.

**Proof sketch.** The new state is a copy of the first one without epsilon moves; the others are merged
into it. Its moves, its kind and its next state are read off the fold over the others. -/
lemma addJointState_eq_ok {i : Nat} {others : List Nat}
    (hothers : ∀ x ∈ others, x < r.automaton.size) :
    ∃ b, r.addJointState i others = .ok (r.automaton.size, { r with automaton := b }) ∧
      AddsJoint r.automaton b (i :: others) := by
  set start := (r.automaton.state i).withoutEpsilon with hstart
  have hold (x : Nat) (hx : x < r.automaton.size) :
      (r.automaton.push start).state x = r.automaton.state x := state_push_of_lt _ hx
  obtain ⟨b, hfold, hsize, hframe, hnew⟩ :=
    foldlM_mergeMoves others (r.automaton.push start) (size_push _ _) hothers
  have hjoint : b.state r.automaton.size =
      others.foldl (fun s x => s.absorb (r.automaton.state x)) start := by
    rw [hnew, state_push_size]
    exact List.foldl_ext _ _ _ fun s x hx => by rw [hold x (hothers x hx)]
  have hmoves := foldl_absorb_moves r.automaton.state others start
  obtain ⟨hnext, hepsilon⟩ := foldl_absorb_frame r.automaton.state others start
  have hkind := lowestKind_foldl (fun x => (r.automaton.state x).kind) others
    (lowestKind_single start.kind)
  rw [← foldl_absorb_kind r.automaton.state] at hkind
  rw [← hjoint] at hnext hepsilon hkind
  simp only [← hjoint] at hmoves
  refine ⟨b, ?_, hsize, fun hx => (hframe _ hx).trans (hold _ hx), hepsilon,
    ⟨i, List.mem_cons_self, hnext⟩, ?_, ?_⟩
  · rw [Reduction.addJointState, ← hstart, hfold]
    rfl
  · intro c
    rw [hmoves]
    simp [hstart, State.withoutEpsilon]
  · intro k hk
    rw [hk] at hkind
    simpa [hstart, State.withoutEpsilon] using hkind.1

/-- Adding a joint state with its meaning is growth. -/
lemma AddsJoint.grows {b b' : Automaton} (h : AddsJoint b b' is) :
    Grows b b' μ (μ.addJoint b.size is) where
  size_le := by rw [h.size_eq]; omega
  state hi := h.state hi
  stands hi := Meaning.addJoint_stands_of_ne (Nat.ne_of_lt hi)
  place _ := Iff.rfl

namespace AddsJoint

variable {b b' : Automaton}

/-- There is one new state. -/
lemma eq_of_new (h : AddsJoint b b' is) {y : Nat} (hle : b.size ≤ y) (hlt : y < b'.size) :
    y = b.size := by
  rw [h.size_eq] at hlt
  omega

/-- A joint state leads only where the states that it stands for led. -/
lemma inRange (h : AddsJoint b b' is) (hb : b.InRange) : b'.InRange := by
  have hg : Grows b b' (Meaning.initial b) _ := h.grows
  obtain ⟨i, -, hnext⟩ := h.next
  refine hg.inRange hb ?_ ?_
  · intro y hle hlt z hz
    simp [h.eq_of_new hle hlt, h.epsilon] at hz
  · intro y m hle hlt hm
    rw [h.eq_of_new hle hlt, hnext] at hm
    exact (hb.next i m hm).trans_le hg.size_le

/-- A joint state keeps the invariant.

**Proof sketch.** By what the invariant asks of the one new state. It has no epsilon moves; a move of it
is a move of one of its states, all of which have the same next state; and its kind is that of one of
its states. -/
lemma reduced (h : AddsJoint b b' is) (hr : Reduced a b μ) {next : Option Nat}
    (hnext : ∀ i ∈ is, (b.state i).next = next) : Reduced a b' (μ.addJoint b.size is) := by
  have hg : Grows b b' μ (μ.addJoint b.size is) := h.grows
  obtain ⟨i₀, hi₀, hnext₀⟩ := h.next
  refine hr.grow hg (h.inRange hr.inRange) ?_ ?_ ?_ ?_ ?_ ?_
  · exact fun _ hy => (hr.place_lt hy).trans_le hg.size_le
  · intro y z o hle hlt hz
    simp [Silent, h.eq_of_new hle hlt, h.epsilon] at hz
  · intro y c m o hle hlt hc hm ho
    obtain rfl := h.eq_of_new hle hlt
    obtain ⟨i, hi, hic⟩ := h.moves.mp hc
    have him : (b.state i).next = some m := by rw [hnext i hi, ← hnext i₀ hi₀, ← hnext₀, hm]
    have ho' : μ.stands m o := (hg.stands (hr.inRange.next i m him)).mp ho
    obtain ⟨x, hx, hxc, hxo⟩ := hr.moves hic him ho'
    exact ⟨x, Meaning.addJoint_stands_self.mpr ⟨i, hi, hx⟩, hxc, hxo⟩
  · intro y k hle hlt hk
    obtain rfl := h.eq_of_new hle hlt
    obtain ⟨i, hi, hik⟩ := h.kind hk
    obtain ⟨x, hx, hxk⟩ := hr.kind hik
    exact ⟨x, Meaning.addJoint_stands_self.mpr ⟨i, hi, hx⟩, hxk⟩
  · intro y m hle hlt hm
    rw [h.eq_of_new hle hlt, hnext₀] at hm
    exact hr.place_next hm
  · exact fun hle hy => absurd (hr.place_lt hy) (Nat.not_lt.mpr hle)

/-- **A joint state can take the place of states with the same next state.**

**Proof sketch.** The new state stands for what one of the given states stands for, and it moves like
one of them, to the next state that they share. -/
lemma replaces (h : AddsJoint b b' is) (his : ∀ i ∈ is, i < b.size) {next : Option Nat}
    (hnext : ∀ i ∈ is, (b.state i).next = next) :
    Replaces b' (μ.addJoint b.size is) is [b.size] := by
  have hg : Grows b b' μ (μ.addJoint b.size is) := h.grows
  obtain ⟨i₀, hi₀, hnext₀⟩ := h.next
  refine ⟨by simp [h.size_eq], ?_, ?_⟩
  · intro j hj o ho
    rw [List.mem_singleton.mp hj] at ho
    obtain ⟨i, hi, hio⟩ := Meaning.addJoint_stands_self.mp ho
    exact ⟨i, hi, (hg.stands (his i hi)).mpr hio⟩
  · rintro i hi c o ⟨hc, m, hm, ho⟩
    rw [h.state (his i hi)] at hc hm
    refine ⟨_, List.mem_singleton_self _, h.moves.mpr ⟨i, hi, hc⟩, m, ?_, ho⟩
    rw [hnext₀, hnext i₀ hi₀, ← hnext i hi, hm]

/-- A joint state takes the place of the states that it joins. -/
lemma merges (h : AddsJoint r.automaton b is) (hs : Sound a r μ)
    (his : ∀ i ∈ is, i < r.automaton.size) {next : Option Nat}
    (hnext : ∀ i ∈ is, (r.automaton.state i).next = next) :
    Merges a r { r with automaton := b } μ (μ.addJoint r.automaton.size is) is
      [r.automaton.size] :=
  ⟨hs.grow h.grows (h.reduced hs.toReduced hnext), h.grows, h.replaces his hnext⟩

end AddsJoint

/-! ## States with equal moves -/

/-- What the two states added at the places `n` and `n + 1` for the states `is` mean: the first
one stands for all that these stand for, and the second one, which moves lead to, for all that
their next states stand for. -/
def Meaning.addTwin (μ : Meaning) (b : Automaton) (is : List Nat) : Meaning where
  stands i o :=
    if i = b.size then ∃ x ∈ is, μ.stands x o
    else if i = b.size + 1 then ∃ x ∈ is, ∃ m, (b.state x).next = some m ∧ μ.stands m o
    else μ.stands i o
  place i := i = b.size + 1 ∨ μ.place i

/-- The first new state stands for all that the members stand for. -/
lemma Meaning.addTwin_stands_self {b : Automaton} {o : Nat} :
    (μ.addTwin b is).stands b.size o ↔ ∃ x ∈ is, μ.stands x o := by
  simp [addTwin]

/-- The second new state stands for what the next states of the members stand for. -/
lemma Meaning.addTwin_stands_succ {b : Automaton} {o : Nat} :
    (μ.addTwin b is).stands (b.size + 1) o ↔
      ∃ x ∈ is, ∃ m, (b.state x).next = some m ∧ μ.stands m o := by
  simp [addTwin]

/-- The automaton `b'` is `b` with two states added. The first one stands for the states `is`,
which move on the same characters, and the second one, its next state, leads on to all of their
next states. -/
structure AddsTwin (b b' : Automaton) (is : List Nat) : Prop where
  size_eq : b'.size = b.size + 2
  state : ∀ {i}, i < b.size → b'.state i = b.state i
  moves : ∀ {i}, i ∈ is → (b'.state b.size).moves = (b.state i).moves
  next : (b'.state b.size).next = some (b.size + 1)
  epsilon : (b'.state b.size).epsilon = []
  kind : ∀ {k}, (b'.state b.size).kind = some k → ∃ i ∈ is, (b.state i).kind = some k
  succ_moves : (b'.state (b.size + 1)).moves = {}
  succ_next : (b'.state (b.size + 1)).next = none
  succ_kind : (b'.state (b.size + 1)).kind = none
  succ_epsilon : ∀ {m}, m ∈ (b'.state (b.size + 1)).epsilon ↔
    ∃ i ∈ is, (b.state i).next = some m

/-- **What adding a state for states with equal moves does.**

**Proof sketch.** Both new states are read off the two that are pushed: the first has the moves of the
first member, which all members share, and the second only leads to where the members led. -/
lemma addsTwin_addTwinState {b : Automaton} {ms : MoveTable} (hne : is ≠ [])
    (hmoves : ∀ i ∈ is, (b.state i).moves = ms) :
    (Reduction.addTwinState b is).1 = b.size ∧ AddsTwin b (Reduction.addTwinState b is).2 is := by
  obtain ⟨i₀, rest, rfl⟩ := List.exists_cons_of_ne_nil hne
  have hold : ∀ (s t : State) {i}, i < b.size → ((b.push s).push t).state i = b.state i := by
    intro s t i hi
    rw [state_push_of_lt t (by rw [size_push]; omega), state_push_of_lt s hi]
  have hfst : ∀ s t : State, ((b.push s).push t).state b.size = s := by
    intro s t
    rw [state_push_of_lt t (by rw [size_push]; omega), state_push_size]
  have hsnd : ∀ s t : State, ((b.push s).push t).state (b.size + 1) = t := by
    intro s t
    rw [← size_push b s, state_push_size]
  refine ⟨rfl, ?_⟩
  simp only [Reduction.addTwinState]
  refine ⟨by simp, hold _ _, ?_, ?_, ?_, ?_, ?_, ?_, ?_, ?_⟩
  · intro i hi
    rw [hfst, hmoves i hi, ← hmoves i₀ List.mem_cons_self]
    rfl
  · rw [hfst]
  · rw [hfst]
    rfl
  · intro k hk
    rw [hfst] at hk
    have hlow := lowestKind_foldl State.kind ((i₀ :: rest).map b.state)
      (lowestKind_single (b.state i₀).kind)
    have hk' : ((i₀ :: rest).map b.state).foldl (fun k s => leastKind k s.kind)
        (b.state i₀).kind = some k := hk
    rw [hk'] at hlow
    rcases hlow.1 with h | ⟨s, hs, h⟩
    · exact ⟨i₀, List.mem_cons_self, h⟩
    · obtain ⟨i, hi, rfl⟩ := List.mem_map.mp hs
      exact ⟨i, hi, h⟩
  · rw [hsnd]
  · rw [hsnd]
  · rw [hsnd]
  · intro m
    rw [hsnd, mem_sortedSet, List.mem_filterMap]
    simp

/-- Adding a state for states with equal moves, with its meaning, is growth. -/
lemma AddsTwin.grows {b b' : Automaton} (h : AddsTwin b b' is) :
    Grows b b' μ (μ.addTwin b is) where
  size_le := by rw [h.size_eq]; omega
  state hi := h.state hi
  stands hi := by
    have h₁ := Nat.ne_of_lt hi
    have h₂ := Nat.ne_of_lt (Nat.lt_succ_of_lt hi)
    simp [Meaning.addTwin, h₁, h₂]
  place hi := by
    have h₂ := Nat.ne_of_lt (Nat.lt_succ_of_lt hi)
    simp [Meaning.addTwin, h₂]

namespace AddsTwin

variable {b b' : Automaton}

/-- There are two new states. -/
lemma eq_of_new (h : AddsTwin b b' is) {y : Nat} (hle : b.size ≤ y) (hlt : y < b'.size) :
    y = b.size ∨ y = b.size + 1 := by
  rw [h.size_eq] at hlt
  omega

/-- The two new states lead only to each other and to where the states that they stand for led.

**Proof sketch.** The first new state leads to the second one, and the second one to where the members
led, which is in range in the old automaton. -/
lemma inRange (h : AddsTwin b b' is) (hb : b.InRange) : b'.InRange := by
  have hg : Grows b b' (Meaning.initial b) _ := h.grows
  refine hg.inRange hb ?_ ?_
  · intro y hle hlt z hz
    rcases h.eq_of_new hle hlt with rfl | rfl
    · simp [h.epsilon] at hz
    · obtain ⟨i, -, hm⟩ := h.succ_epsilon.mp hz
      exact (hb.next i z hm).trans_le hg.size_le
  · intro y m hle hlt hm
    rcases h.eq_of_new hle hlt with rfl | rfl
    · rw [h.next, Option.some_inj] at hm
      rw [h.size_eq, ← hm]
      omega
    · simp [h.succ_next] at hm

/-- The two new states keep the invariant.

**Proof sketch.** By what the invariant asks of the two new states. The first one has only its moves,
which every member has; the second one has only its epsilon moves, each to the next state of a member.
-/
lemma reduced (h : AddsTwin b b' is) (hr : Reduced a b μ) : Reduced a b' (μ.addTwin b is) := by
  have hg : Grows b b' μ (μ.addTwin b is) := h.grows
  have hlt' : ∀ {i m}, (b.state i).next = some m → m < b.size := fun hm => hr.inRange.next _ _ hm
  refine hr.grow hg (h.inRange hr.inRange) ?_ ?_ ?_ ?_ ?_ ?_
  · rintro y hle (rfl | hy)
    · rw [h.size_eq]
      omega
    · exact (hr.place_lt hy).trans_le hg.size_le
  · intro y z o hle hlt hz ho
    rcases h.eq_of_new hle hlt with rfl | rfl
    · simp [Silent, h.epsilon] at hz
    · obtain ⟨i, hi, hm⟩ := h.succ_epsilon.mp hz
      have ho' : μ.stands z o := (hg.stands (hlt' hm)).mp ho
      exact ⟨o, Meaning.addTwin_stands_succ.mpr ⟨i, hi, z, hm, ho'⟩, Below.refl a o⟩
  · intro y c m o hle hlt hc hm ho
    rcases h.eq_of_new hle hlt with rfl | rfl
    · rw [h.next, Option.some_inj] at hm
      subst hm
      obtain ⟨i, hi, m', hm', ho'⟩ := Meaning.addTwin_stands_succ.mp ho
      rw [h.moves hi] at hc
      obtain ⟨x, hx, hxc, hxo⟩ := hr.moves hc hm' ho'
      exact ⟨x, Meaning.addTwin_stands_self.mpr ⟨i, hi, hx⟩, hxc, hxo⟩
    · simp [h.succ_moves] at hc
  · intro y k hle hlt hk
    rcases h.eq_of_new hle hlt with rfl | rfl
    · obtain ⟨i, hi, hik⟩ := h.kind hk
      obtain ⟨x, hx, hxk⟩ := hr.kind hik
      exact ⟨x, Meaning.addTwin_stands_self.mpr ⟨i, hi, hx⟩, hxk⟩
    · simp [h.succ_kind] at hk
  · intro y m hle hlt hm
    rcases h.eq_of_new hle hlt with rfl | rfl
    · rw [h.next, Option.some_inj] at hm
      exact Or.inl hm.symm
    · simp [h.succ_next] at hm
  · rintro y o hle (rfl | hy) ho
    · obtain ⟨i, hi, m, hm, ho'⟩ := Meaning.addTwin_stands_succ.mp ho
      refine ⟨m, (hlt' hm).trans (Nat.lt_succ_self _), h.succ_epsilon.mpr ⟨i, hi, hm⟩,
        Or.inr (hr.place_next hm), (hg.stands (hlt' hm)).mpr ho'⟩
    · exact absurd (hr.place_lt hy) (Nat.not_lt.mpr hle)

/-- **A state added for states with equal moves can take their place.** -/
lemma replaces (h : AddsTwin b b' is) (hb : b.InRange) (his : ∀ i ∈ is, i < b.size) :
    Replaces b' (μ.addTwin b is) is [b.size] := by
  have hg : Grows b b' μ (μ.addTwin b is) := h.grows
  refine ⟨by simp [h.size_eq], ?_, ?_⟩
  · intro j hj o ho
    rw [List.mem_singleton.mp hj] at ho
    obtain ⟨i, hi, hio⟩ := Meaning.addTwin_stands_self.mp ho
    exact ⟨i, hi, (hg.stands (his i hi)).mpr hio⟩
  · rintro i hi c o ⟨hc, m, hm, ho⟩
    rw [h.state (his i hi)] at hc hm
    refine ⟨_, List.mem_singleton_self _, by rwa [h.moves hi], _, h.next, ?_⟩
    exact Meaning.addTwin_stands_succ.mpr ⟨i, hi, m, hm, (hg.stands (hb.next i m hm)).mp ho⟩

/-- The first of two twin states takes the place of all members. -/
lemma merges (h : AddsTwin r.automaton b is) (hs : Sound a r μ)
    (his : ∀ i ∈ is, i < r.automaton.size) :
    Merges a r { r with automaton := b } μ (μ.addTwin r.automaton is) is [r.automaton.size] :=
  ⟨hs.grow h.grows (h.reduced hs.toReduced), h.grows, h.replaces hs.inRange his⟩

end AddsTwin

end GrammarForge
