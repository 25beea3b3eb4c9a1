import GrammarForge.Proofs.MergedStates
import GrammarForge.Proofs.TidyStates

set_option autoImplicit false

/-!
# Reduction keeps what is matched

Each way of merging goes through a list of states from left to right and replaces states that
belong together by one. Rounds of merging replace the closure of one state after the other, and
the invariant of a reduction is kept all the way. So a reduction never fails, and a reduced
automaton accepts the same kinds as one that is only closed.

## Main definitions

* `MergesBut` — a step of merging that may leave out states for which others are responsible.

## Main results

* `merges_mergeTwins`, `merges_mergeByNext` — the two ways of merging.
* `merges_mergeAll` — rounds of merging.
* `reduce_eq_ok` — a reduction never fails and keeps the invariant.
* `closures_accept_same_kinds` — reduced or not, an automaton accepts the same kinds.
-/

namespace GrammarForge

open Automaton

variable {a : Automaton} {r r' r'' : Reduction} {μ μ' μ'' : Meaning} {is js ks : List Nat}

/-! ## Going through a list of states -/

/-- A step of merging that replaced `is` by `js`, but for states that are left out since another
state, met before, is responsible for them. -/
structure MergesBut (a : Automaton) (r r' : Reduction) (μ μ' : Meaning) (out : Nat → Prop)
    (is js : List Nat) : Prop where
  sound : Sound a r' μ'
  grows : Grows r.automaton r'.automaton μ μ'
  lt : ∀ j ∈ js, j < r'.automaton.size
  stands : ∀ j ∈ js, ∀ {o}, μ'.stands j o → ∃ i ∈ is, μ'.stands i o
  offers : ∀ i ∈ is, ¬ out i → ∀ {c o}, Offers r'.automaton μ' i c o →
    ∃ j ∈ js, Offers r'.automaton μ' j c o

namespace MergesBut

variable {out out' : Nat → Prop}

/-- Without states nothing is merged. -/
lemma nil (h : Sound a r μ) : MergesBut a r r μ μ out [] [] :=
  ⟨h, Grows.refl _ _, by simp, by simp, by simp⟩

/-- If no state is left out, all have been replaced. -/
lemma merges (h : MergesBut a r r' μ μ' out is js) (hout : ∀ i ∈ is, ¬ out i) :
    Merges a r r' μ μ' is js :=
  ⟨h.sound, h.grows, h.lt, h.stands, fun i hi _ _ ho => h.offers i hi (hout i hi) ho⟩

/-- The order of the new states does not matter. -/
lemma congr (h : MergesBut a r r' μ μ' out is js) (hjs : ∀ j, j ∈ js ↔ j ∈ ks) :
    MergesBut a r r' μ μ' out is ks where
  sound := h.sound
  grows := h.grows
  lt k hk := h.lt k ((hjs k).mpr hk)
  stands k hk := h.stands k ((hjs k).mpr hk)
  offers i hi hout c o ho := by
    obtain ⟨j, hj, hjo⟩ := h.offers i hi hout ho
    exact ⟨j, (hjs j).mp hj, hjo⟩

/-- The first state is left out, and all that it would be responsible for.

**Proof sketch.** What the rest replaces stays replaced. Of the first state nothing is asked, since it
is left out. -/
lemma skip {i : Nat} (h : MergesBut a r r' μ μ' out' is js) (hi : out i)
    (hout : ∀ x ∈ is, out' x → out x) : MergesBut a r r' μ μ' out (i :: is) js where
  sound := h.sound
  grows := h.grows
  lt := h.lt
  stands := by
    intro j hj o ho
    obtain ⟨x, hx, hxo⟩ := h.stands j hj ho
    exact ⟨x, List.mem_cons_of_mem i hx, hxo⟩
  offers := by
    intro x hx hxout c o ho
    rcases List.mem_cons.mp hx with rfl | hx
    · exact absurd hi hxout
    · exact h.offers x hx (fun h' => hxout (hout x hx h')) ho

/-- The first state is merged with those that it is responsible for.

**Proof sketch.** The state that replaces the group goes on doing so while the rest is merged. A state
of the rest that the rest leaves out is either left out altogether or belongs to the group, where the
new state takes its place. -/
lemma cons {i j : Nat} {group : List Nat} (hrange : ∀ x ∈ i :: is, x < r.automaton.size)
    (hfirst : Merges a r r' μ μ' group [j]) (h : MergesBut a r' r'' μ' μ'' out' is js)
    (hi : i ∈ group) (hgroup : ∀ x ∈ group, x ∈ i :: is)
    (hout : ∀ x ∈ is, out' x → out x ∨ x ∈ group) :
    MergesBut a r r'' μ μ'' out (i :: is) (j :: js) := by
  have hrep : Replaces r''.automaton μ'' group [j] :=
    hfirst.replaces.grow hfirst.sound.inRange
      (fun x hx => (hrange x (hgroup x hx)).trans_le hfirst.grows.size_le) h.grows
  have hoffers : ∀ x ∈ group, ∀ {c o}, Offers r''.automaton μ'' x c o →
      ∃ k ∈ j :: js, Offers r''.automaton μ'' k c o := by
    intro x hx c o ho
    obtain ⟨k, hk, hko⟩ := hrep.offers x hx ho
    exact ⟨k, List.mem_cons.mpr (Or.inl (List.mem_singleton.mp hk)), hko⟩
  refine ⟨h.sound, hfirst.grows.trans h.grows, ?_, ?_, ?_⟩
  · intro k hk
    rcases List.mem_cons.mp hk with rfl | hk
    · exact hrep.lt k (List.mem_singleton_self k)
    · exact h.lt k hk
  · intro k hk o ho
    rcases List.mem_cons.mp hk with rfl | hk
    · obtain ⟨x, hx, hxo⟩ := hrep.stands k (List.mem_singleton_self k) ho
      exact ⟨x, hgroup x hx, hxo⟩
    · obtain ⟨x, hx, hxo⟩ := h.stands k hk ho
      exact ⟨x, List.mem_cons_of_mem i hx, hxo⟩
  · intro x hx hxout c o ho
    rcases List.mem_cons.mp hx with rfl | hx
    · exact hoffers x hi ho
    · by_cases hx' : out' x
      · exact hoffers x ((hout x hx hx').resolve_left hxout) ho
      · obtain ⟨k, hk, hko⟩ := h.offers x hx hx' ho
        exact ⟨k, List.mem_cons_of_mem j hk, hko⟩

end MergesBut

/-! ## Merging states with equal moves -/

/-- What it means that two states are twins: both have the same moves, and there are some. -/
lemma areTwins_iff {b : Automaton} {i j : Nat} : Reduction.areTwins b i j ↔
    (b.state i).hasMoves ∧ (b.state i).moves = (b.state j).moves := by
  simp [Reduction.areTwins]

/-- Being twins carries over from pair to pair. -/
lemma areTwins_trans {b : Automaton} {i j k : Nat} (h₁ : Reduction.areTwins b i j)
    (h₂ : Reduction.areTwins b j k) : Reduction.areTwins b i k := by
  rw [areTwins_iff] at h₁ h₂ ⊢
  exact ⟨h₁.1, h₁.2.trans h₂.2⟩

/-- Growth keeps which states have equal moves. -/
lemma Grows.areTwins {b b' : Automaton} (h : Grows b b' μ μ') {i j : Nat} (hi : i < b.size)
    (hj : j < b.size) : Reduction.areTwins b' i j = Reduction.areTwins b i j := by
  rw [Reduction.areTwins, Reduction.areTwins, h.state hi, h.state hj]

/-- A merged state can be remembered. -/
lemma Sound.remember (h : Sound a r μ) {i : Nat} (his : ∀ x ∈ is, x < r.automaton.size)
    (hrep : Replaces r.automaton μ is [i]) : Sound a ⟨r.automaton, r.merged.insert is i⟩ μ where
  toReduced := h.toReduced
  merged := by
    intro js j hget
    rw [OrderedMap.get?_insert] at hget
    split_ifs at hget with heq
    · obtain rfl := heq
      cases hget
      exact ⟨his, hrep⟩
    · exact h.merged hget

/-- **The state for states with equal moves**, made now or before, can take their place. -/
lemma merges_twinState (h : Sound a r μ) {ms : MoveTable} (his : ∀ i ∈ is, i < r.automaton.size)
    (hne : is ≠ []) (hmoves : ∀ i ∈ is, (r.automaton.state i).moves = ms) :
    ∃ μ', Merges a r (r.twinState is).2 μ μ' is [(r.twinState is).1] := by
  rw [Reduction.twinState]
  cases hget : r.merged.get? is with
  | some i => exact ⟨μ, h, Grows.refl _ _, (h.merged hget).2⟩
  | none =>
    obtain ⟨hfst, hadds⟩ := addsTwin_addTwinState hne hmoves
    have hm := hadds.merges h his
    rw [← hfst] at hm
    have his' : ∀ x ∈ is, x < (Reduction.addTwinState r.automaton is).2.size :=
      fun x hx => (his x hx).trans_le hm.grows.size_le
    exact ⟨_, hm.sound.remember his' hm.replaces, hm.grows, hm.replaces⟩

/-- **The first state and all that move like it are replaced by one.**

**Proof sketch.** If no other state moves like the first one, it stays as it is. Otherwise the group is
the sorted set of the first state and its twins, all with the same moves, and the state found or added
for it takes the place of them all. -/
lemma merges_firstTwin (h : Sound a r μ) {i : Nat} {rest : List Nat}
    (his : ∀ x ∈ i :: rest, x < r.automaton.size) :
    ∃ μ' group, Merges a r (r.firstTwin i rest).2 μ μ' group [(r.firstTwin i rest).1] ∧
      i ∈ group ∧ (∀ x ∈ group, x ∈ i :: rest) ∧
      ∀ x ∈ rest, Reduction.areTwins r.automaton i x → x ∈ group := by
  rw [Reduction.firstTwin]
  set twins := rest.filter (Reduction.areTwins r.automaton i)
  have htwins : ∀ x, x ∈ twins ↔ x ∈ rest ∧ Reduction.areTwins r.automaton i x :=
    fun x => List.mem_filter
  by_cases hempty : twins.isEmpty
  · rw [if_pos hempty]
    rw [List.isEmpty_iff] at hempty
    refine ⟨μ, [i], Merges.refl h (by simpa using his i List.mem_cons_self),
      List.mem_singleton_self i, by simp, fun x hx hix => ?_⟩
    have hx' := (htwins x).mpr ⟨hx, hix⟩
    simp [hempty] at hx'
  · rw [if_neg hempty]
    have hmem : ∀ x, x ∈ sortedSet compare (i :: twins) ↔ x = i ∨ x ∈ twins := by
      intro x
      rw [mem_sortedSet, List.mem_cons]
    have hself : i ∈ sortedSet compare (i :: twins) := (hmem i).mpr (Or.inl rfl)
    have hsub : ∀ x ∈ sortedSet compare (i :: twins), x ∈ i :: rest := by
      intro x hx
      rcases (hmem x).mp hx with rfl | hx
      · exact List.mem_cons_self
      · exact List.mem_cons_of_mem i ((htwins x).mp hx).1
    have hmoves : ∀ x ∈ sortedSet compare (i :: twins),
        (r.automaton.state x).moves = (r.automaton.state i).moves := by
      intro x hx
      rcases (hmem x).mp hx with rfl | hx
      · rfl
      · exact (areTwins_iff.mp ((htwins x).mp hx).2).2.symm
    obtain ⟨μ', hm⟩ := merges_twinState h (fun x hx => his x (hsub x hx))
      (List.ne_nil_of_mem hself) hmoves
    exact ⟨μ', _, hm, hself, hsub,
      fun x hx hix => (hmem x).mpr (Or.inr ((htwins x).mpr ⟨hx, hix⟩))⟩

/-- **Merging states with equal moves.** Left out are the states that move like one further
left.

**Proof sketch.** Induction on the states. If the first one moves like an earlier one, it is left out,
and so is what moves like it. Otherwise it is replaced together with its twins among the rest, and the
rest is merged in the grown automaton, where the same states are twins. -/
lemma mergesBut_mergeTwins : ∀ (is earlier : List Nat) {r : Reduction} {μ : Meaning}, Sound a r μ →
    (∀ i ∈ is, i < r.automaton.size) → (∀ e ∈ earlier, e < r.automaton.size) →
    ∃ μ', MergesBut a r (r.mergeTwins earlier is).2 μ μ'
      (fun x => ∃ e ∈ earlier, Reduction.areTwins r.automaton e x) is (r.mergeTwins earlier is).1
  | [], _, _, μ, h, _, _ => ⟨μ, MergesBut.nil h⟩
  | i :: is, earlier, r, μ, h, his, hearlier => by
    have his' : ∀ x ∈ is, x < r.automaton.size := fun x hx => his x (List.mem_cons_of_mem i hx)
    have hearlier' : ∀ e ∈ i :: earlier, e < r.automaton.size :=
      List.forall_mem_cons.mpr ⟨his i List.mem_cons_self, hearlier⟩
    by_cases hany : earlier.any (Reduction.areTwins r.automaton · i)
    · rw [mergeTwins_cons_of_any hany]
      obtain ⟨e, he, hei⟩ := List.any_eq_true.mp hany
      obtain ⟨μ', hrest⟩ := mergesBut_mergeTwins is (i :: earlier) h his' hearlier'
      refine ⟨μ', hrest.skip ⟨e, he, hei⟩ ?_⟩
      rintro x - ⟨e', he', hx⟩
      rcases List.mem_cons.mp he' with rfl | he'
      · exact ⟨e, he, areTwins_trans hei hx⟩
      · exact ⟨e', he', hx⟩
    · rw [mergeTwins_cons_of_not_any hany]
      obtain ⟨μ₁, group, hfirst, hself, hsub, hgroup⟩ := merges_firstTwin h his
      have hle := hfirst.grows.size_le
      obtain ⟨μ', hrest⟩ := mergesBut_mergeTwins is (i :: earlier) hfirst.sound
        (fun x hx => (his' x hx).trans_le hle) (fun e he => (hearlier' e he).trans_le hle)
      refine ⟨μ', MergesBut.cons his hfirst hrest hself hsub ?_⟩
      rintro x hx ⟨e, he, hex⟩
      rw [hfirst.grows.areTwins (hearlier' e he) (his' x hx)] at hex
      rcases List.mem_cons.mp he with rfl | he
      · exact Or.inr (hgroup x hx hex)
      · exact Or.inl ⟨e, he, hex⟩

/-- All states with equal moves are merged. -/
lemma merges_mergeTwins (h : Sound a r μ) (his : ∀ i ∈ is, i < r.automaton.size) :
    ∃ μ', Merges a r (r.mergeTwins [] is).2 μ μ' is (r.mergeTwins [] is).1 := by
  obtain ⟨μ', hm⟩ := mergesBut_mergeTwins is [] h his (by simp)
  exact ⟨μ', hm.merges (by simp)⟩

/-! ## Merging states with the same next state -/

/-- The states after `i` that have its next state. -/
def Reduction.withNextOf (r : Reduction) (i : Nat) (rest : List Nat) : List Nat :=
  rest.filter fun j => (r.automaton.state j).next = (r.automaton.state i).next

/-- The states joined with a state are those of the rest that have its next state. -/
lemma mem_withNextOf {i x : Nat} {rest : List Nat} : x ∈ r.withNextOf i rest ↔
    x ∈ rest ∧ (r.automaton.state x).next = (r.automaton.state i).next := by
  simp [Reduction.withNextOf]

/-- A state whose next state an earlier one has is passed over. -/
lemma mergeByNext_cons_of_any {i : Nat} {earlier rest : List Nat}
    (h : earlier.any fun j => (r.automaton.state j).next = (r.automaton.state i).next) :
    r.mergeByNext earlier (i :: rest) = r.mergeByNext (i :: earlier) rest := by
  rw [Reduction.mergeByNext, if_pos h]

/-- A state that shares its next state with no other one is kept. -/
lemma mergeByNext_cons_of_alone {i : Nat} {earlier rest : List Nat}
    (h : ¬ earlier.any fun j => (r.automaton.state j).next = (r.automaton.state i).next)
    (halone : r.withNextOf i rest = []) {kept joint : List Nat}
    (hrest : r.mergeByNext (i :: earlier) rest = .ok ((kept, joint), r')) :
    r.mergeByNext earlier (i :: rest) = .ok ((i :: kept, joint), r') := by
  have hempty : (r.withNextOf i rest).isEmpty := by rw [halone]; rfl
  rw [Reduction.mergeByNext, if_neg h, ← Reduction.withNextOf, if_pos hempty, hrest]
  rfl

/-- A state that shares its next state with others is joined with them. -/
lemma mergeByNext_cons_of_joint {i j : Nat} {earlier rest : List Nat}
    (h : ¬ earlier.any fun j => (r.automaton.state j).next = (r.automaton.state i).next)
    (hothers : r.withNextOf i rest ≠ []) {kept joint : List Nat}
    (hfirst : r.addJointState i (r.withNextOf i rest) = .ok (j, r'))
    (hrest : r'.mergeByNext (i :: earlier) rest = .ok ((kept, joint), r'')) :
    r.mergeByNext earlier (i :: rest) = .ok ((kept, j :: joint), r'') := by
  have hempty : ¬ (r.withNextOf i rest).isEmpty := by rwa [List.isEmpty_iff]
  rw [Reduction.mergeByNext, if_neg h, ← Reduction.withNextOf, if_neg hempty, hfirst]
  show (r'.mergeByNext (i :: earlier) rest >>= _) = _
  rw [hrest]
  rfl

/-- **Merging states with the same next state.** Left out are the states with the next state of
one further left.

**Proof sketch.** Induction on the states, along the three cases: passed over, kept alone, or joined
with those of the rest that have the same next state. A joint state is new, so that the old ones keep
their next states and the rest is divided in the same way. -/
lemma mergesBut_mergeByNext : ∀ (is earlier : List Nat) {r : Reduction} {μ : Meaning},
    Sound a r μ → (∀ i ∈ is, i < r.automaton.size) → (∀ e ∈ earlier, e < r.automaton.size) →
    ∃ kept joint r' μ', r.mergeByNext earlier is = .ok ((kept, joint), r') ∧
      MergesBut a r r' μ μ'
        (fun x => ∃ e ∈ earlier, (r.automaton.state e).next = (r.automaton.state x).next) is
        (kept ++ joint)
  | [], _, r, μ, h, _, _ => ⟨[], [], r, μ, rfl, MergesBut.nil h⟩
  | i :: is, earlier, r, μ, h, his, hearlier => by
    have hi : i < r.automaton.size := his i List.mem_cons_self
    have his' : ∀ x ∈ is, x < r.automaton.size := fun x hx => his x (List.mem_cons_of_mem i hx)
    have hearlier' : ∀ e ∈ i :: earlier, e < r.automaton.size :=
      List.forall_mem_cons.mpr ⟨hi, hearlier⟩
    by_cases hany : earlier.any fun j => (r.automaton.state j).next = (r.automaton.state i).next
    · obtain ⟨e, he, hei⟩ := List.any_eq_true.mp hany
      have hei := of_decide_eq_true hei
      obtain ⟨kept, joint, r', μ', hrun, hrest⟩ :=
        mergesBut_mergeByNext is (i :: earlier) h his' hearlier'
      refine ⟨kept, joint, r', μ', (mergeByNext_cons_of_any hany).trans hrun,
        hrest.skip ⟨e, he, hei⟩ ?_⟩
      rintro x - ⟨e', he', hx⟩
      rcases List.mem_cons.mp he' with rfl | he'
      · exact ⟨e, he, hei.trans hx⟩
      · exact ⟨e', he', hx⟩
    · by_cases halone : r.withNextOf i is = []
      · obtain ⟨kept, joint, r', μ', hrun, hrest⟩ :=
          mergesBut_mergeByNext is (i :: earlier) h his' hearlier'
        have hfirst : Merges a r r μ μ [i] [i] := Merges.refl h (by simpa using hi)
        refine ⟨i :: kept, joint, r', μ', mergeByNext_cons_of_alone hany halone hrun,
          MergesBut.cons his hfirst hrest (List.mem_singleton_self i) (by simp) ?_⟩
        rintro x hx ⟨e, he, hex⟩
        rcases List.mem_cons.mp he with rfl | he
        · have hx' := mem_withNextOf.mpr ⟨hx, hex.symm⟩
          simp [halone] at hx'
        · exact Or.inl ⟨e, he, hex⟩
      · set others := r.withNextOf i is
        have hsub : ∀ x ∈ i :: others, x ∈ i :: is := by
          intro x hx
          rcases List.mem_cons.mp hx with rfl | hx
          · exact List.mem_cons_self
          · exact List.mem_cons_of_mem i (mem_withNextOf.mp hx).1
        have hnext : ∀ x ∈ i :: others,
            (r.automaton.state x).next = (r.automaton.state i).next := by
          intro x hx
          rcases List.mem_cons.mp hx with rfl | hx
          · rfl
          · exact (mem_withNextOf.mp hx).2
        obtain ⟨b, hjoint, hadds⟩ := addJointState_eq_ok (i := i)
          fun x hx => his x (hsub x (List.mem_cons_of_mem i hx))
        have hfirst := hadds.merges h (fun x hx => his x (hsub x hx)) hnext
        have hle := hfirst.grows.size_le
        obtain ⟨kept, joint, r', μ', hrun, hrest⟩ :=
          mergesBut_mergeByNext is (i :: earlier) hfirst.sound
            (fun x hx => (his' x hx).trans_le hle) (fun e he => (hearlier' e he).trans_le hle)
        have hall : MergesBut a r r' μ μ'
            (fun x => ∃ e ∈ earlier, (r.automaton.state e).next = (r.automaton.state x).next)
            (i :: is) (r.automaton.size :: (kept ++ joint)) := by
          refine MergesBut.cons his hfirst hrest List.mem_cons_self hsub ?_
          rintro x hx ⟨e, he, hex⟩
          rw [hfirst.grows.state (hearlier' e he), hfirst.grows.state (his' x hx)] at hex
          rcases List.mem_cons.mp he with rfl | he
          · exact Or.inr (List.mem_cons_of_mem e (mem_withNextOf.mpr ⟨hx, hex.symm⟩))
          · exact Or.inl ⟨e, he, hex⟩
        refine ⟨kept, r.automaton.size :: joint, r', μ',
          mergeByNext_cons_of_joint hany halone hjoint hrun, hall.congr fun j => ?_⟩
        simp only [List.mem_cons, List.mem_append]
        exact or_left_comm

/-- All states with the same next state are merged. -/
lemma merges_mergeByNext (h : Sound a r μ) (his : ∀ i ∈ is, i < r.automaton.size) :
    ∃ kept joint r' μ', r.mergeByNext [] is = .ok ((kept, joint), r') ∧
      Merges a r r' μ μ' is (kept ++ joint) := by
  obtain ⟨kept, joint, r', μ', hrun, hm⟩ := mergesBut_mergeByNext is [] h his (by simp)
  exact ⟨kept, joint, r', μ', hrun, hm.merges (by simp)⟩

/-! ## Rounds of merging -/

/-- One round never fails. -/
lemma merges_mergeOnce (h : Sound a r μ) (his : ∀ i ∈ is, i < r.automaton.size) :
    ∃ js r' μ', r.mergeOnce is = .ok (js, r') ∧ Merges a r r' μ μ' is js := by
  obtain ⟨μ₁, htwins⟩ := merges_mergeTwins h his
  obtain ⟨kept, joint, r', μ', hrun, hnext⟩ :=
    merges_mergeByNext htwins.sound htwins.replaces.lt
  refine ⟨kept ++ joint, r', μ', ?_, htwins.trans hnext his⟩
  show ((r.mergeTwins [] is).2.mergeByNext [] (r.mergeTwins [] is).1 >>= _) = _
  rw [hrun]
  rfl

/-- **Rounds of merging** come to an end and never fail. -/
lemma merges_mergeAll (is : List Nat) : ∀ {r : Reduction} {μ : Meaning}, Sound a r μ →
    (∀ i ∈ is, i < r.automaton.size) →
    ∃ js r' μ', Reduction.mergeAll r is = .ok (js, r') ∧ Merges a r r' μ μ' is js := by
  induction hlen : is.length using Nat.strong_induction_on generalizing is with
  | _ n ih =>
    intro r μ h his
    obtain ⟨js, r₁, μ₁, hrun, hm⟩ := merges_mergeOnce h his
    rw [Reduction.mergeAll, hrun]
    dsimp only
    split_ifs with hlt
    · obtain ⟨ks, r₂, μ₂, hrun₂, hm₂⟩ := ih js.length (hlen ▸ hlt) js rfl hm.sound hm.replaces.lt
      exact ⟨ks, r₂, μ₂, hrun₂, hm.trans hm₂ his⟩
    · exact ⟨js, r₁, μ₁, rfl, hm⟩

/-! ## Replacing closures -/

/-- The automaton with another epsilon set of the state `i`. -/
def withEpsilon (b : Automaton) (i : Nat) (js : List Nat) : Automaton :=
  b.modify i fun s => { s with epsilon := js }

section

variable {b : Automaton} {i : Nat}

/-- An epsilon set is replaced, but no state is added. -/
lemma size_withEpsilon (b : Automaton) (i : Nat) (js : List Nat) :
    (withEpsilon b i js).size = b.size := size_modify _ _

/-- Only the epsilon set of one state is replaced. -/
lemma state_withEpsilon (hi : i < b.size) (js : List Nat) (x : Nat) :
    (withEpsilon b i js).state x =
      { b.state x with epsilon := if x = i then js else (b.state x).epsilon } := by
  rw [withEpsilon]
  split_ifs with hx
  · rw [hx, state_modify_self _ hi]
  · rw [state_modify_of_ne _ (Ne.symm hx)]

/-- Replacing an epsilon set changes no move on a character. -/
lemma offers_withEpsilon (hi : i < b.size) {x o : Nat} {c : Char} :
    Offers (withEpsilon b i js) μ x c o ↔ Offers b μ x c o := by
  rw [Offers, Offers, state_withEpsilon hi]

/-- What moved on before moves on with the other epsilon set as well. -/
lemma goes_withEpsilon (hi : i < b.size) (hrep : Replaces b μ (b.state i).epsilon js) {s m o : Nat}
    {c : Char} (hgo : b.Goes MoveTable.has s c m) (ho : μ.stands m o) :
    ∃ n, (withEpsilon b i js).Goes MoveTable.has s c n ∧ μ.stands n o := by
  obtain ⟨t, ht, hc, hm⟩ := hgo
  have hoffer : Offers b μ t c o := ⟨hc, m, hm, ho⟩
  obtain ⟨t', ht', hoffer'⟩ : ∃ t' ∈ ((withEpsilon b i js).state s).epsilon, Offers b μ t' c o := by
    rw [state_withEpsilon hi]
    split_ifs with hs
    · rw [hs] at ht
      exact hrep.offers t ht hoffer
    · exact ⟨t, ht, hoffer⟩
  obtain ⟨hc', n, hn, hno⟩ := (offers_withEpsilon hi).mpr hoffer'
  exact ⟨n, ⟨t', ht', hc', hn⟩, hno⟩

/-- Replacing the epsilon set of an old state by states that can take its place keeps the
invariant.

**Proof sketch.** Every condition that concerns moves, kinds or next states is as before. An epsilon
move from the changed state leads to a replacement of what it led to, which stands only for what the
replaced states stand for. -/
lemma Reduced.withEpsilon (h : Reduced a b μ) (hi : i < a.size)
    (hrep : Replaces b μ (b.state i).epsilon js) : Reduced a (withEpsilon b i js) μ := by
  have hib : i < b.size := hi.trans_le h.size_le
  refine ⟨⟨?_, ?_⟩, ?_, ?_, ?_, ?_, h.stands_old, h.place_old, ?_, ?_, ?_, ?_, ?_, ?_, ?_⟩
  · intro x y hy
    rw [size_withEpsilon]
    rw [state_withEpsilon hib] at hy
    dsimp only at hy
    split_ifs at hy
    · exact hrep.lt y hy
    · exact h.inRange.epsilon x y hy
  · intro x m hm
    rw [state_withEpsilon hib] at hm
    rw [size_withEpsilon]
    exact h.inRange.next x m hm
  · rw [size_withEpsilon]
    exact h.size_le
  · intro x hx
    rw [state_withEpsilon hib, h.moves_old hx]
  · intro x hx
    rw [state_withEpsilon hib, h.next_old hx]
  · intro x hx
    rw [state_withEpsilon hib, h.kind_old hx]
  · intro y hy
    rw [size_withEpsilon]
    exact h.place_lt hy
  · intro y z o hyz ho
    rw [Silent, state_withEpsilon hib] at hyz
    dsimp only at hyz
    split_ifs at hyz with hy
    · obtain ⟨x, hx, hxo⟩ := hrep.stands z hyz ho
      rw [hy]
      exact h.silent hx hxo
    · exact h.silent hyz ho
  · intro y c m o hc hm ho
    rw [state_withEpsilon hib] at hc hm
    exact h.moves hc hm ho
  · intro y k hk
    rw [state_withEpsilon hib] at hk
    exact h.kind hk
  · intro y m hm
    rw [state_withEpsilon hib] at hm
    exact h.place_next hm
  · intro s c o hs hgo
    obtain ⟨m, hm, hmo⟩ := h.complete hs hgo
    exact goes_withEpsilon hib hrep hm hmo
  · intro y o hge hy ho
    obtain ⟨z, hzy, hyz, hz, hzo⟩ := h.place_new hge hy ho
    have hyi : y ≠ i := Nat.ne_of_gt (hi.trans_le hge)
    refine ⟨z, hzy, ?_, hz, hzo⟩
    rw [Silent, state_withEpsilon hib, if_neg hyi]
    exact hyz

/-- What replaces states still does when an epsilon set is replaced. -/
lemma Replaces.withEpsilon (h : Replaces b μ is ks) (hi : i < b.size) :
    Replaces (withEpsilon b i js) μ is ks where
  lt j hj := by
    rw [size_withEpsilon]
    exact h.lt j hj
  stands := h.stands
  offers x hx _ _ ho := by
    obtain ⟨j, hj, hjo⟩ := h.offers x hx ((offers_withEpsilon hi).mp ho)
    exact ⟨j, hj, (offers_withEpsilon hi).mpr hjo⟩

/-- Replacing an epsilon set keeps the invariant of a reduction. -/
lemma Sound.withEpsilon (h : Sound a r μ) (hi : i < a.size)
    (hrep : Replaces r.automaton μ (r.automaton.state i).epsilon js) :
    Sound a { r with automaton := withEpsilon r.automaton i js } μ where
  toReduced := h.toReduced.withEpsilon hi hrep
  merged hget := by
    obtain ⟨hlt, hmerged⟩ := h.merged hget
    refine ⟨fun y hy => ?_, hmerged.withEpsilon (hi.trans_le h.size_le)⟩
    rw [size_withEpsilon]
    exact hlt y hy

end

/-- Sorting the new states changes nothing. -/
lemma Replaces.sorted {b : Automaton} (h : Replaces b μ is js) :
    Replaces b μ is (sortedSet compare js) where
  lt j hj := h.lt j ((mem_sortedSet compare).mp hj)
  stands j hj := h.stands j ((mem_sortedSet compare).mp hj)
  offers i hi c o ho := by
    obtain ⟨j, hj, hjo⟩ := h.offers i hi ho
    exact ⟨j, (mem_sortedSet compare).mpr hj, hjo⟩

/-- **Reducing the closure of one old state** never fails and keeps the invariant. -/
lemma sound_reduceState (h : Sound a r μ) {i : Nat} (hi : i < a.size) :
    ∃ r' μ', r.reduceState i = .ok r' ∧ Sound a r' μ' := by
  obtain ⟨js, r', μ', hrun, hm⟩ := merges_mergeAll _ h (h.inRange.epsilon i)
  have hrep : Replaces r'.automaton μ' (r'.automaton.state i).epsilon (sortedSet compare js) := by
    rw [hm.grows.state (hi.trans_le h.size_le)]
    exact hm.replaces.sorted
  refine ⟨_, μ', ?_, hm.sound.withEpsilon hi hrep⟩
  rw [Reduction.reduceState, hrun]
  rfl

/-- Reducing the closures of old states, one after the other. -/
lemma sound_foldlM_reduceState : ∀ (is : List Nat) {r : Reduction} {μ : Meaning}, Sound a r μ →
    (∀ i ∈ is, i < a.size) → ∃ r' μ', is.foldlM Reduction.reduceState r = .ok r' ∧ Sound a r' μ'
  | [], r, μ, h, _ => ⟨r, μ, rfl, h⟩
  | i :: is, r, μ, h, his => by
    obtain ⟨r₁, μ₁, hrun, h₁⟩ := sound_reduceState h (his i List.mem_cons_self)
    obtain ⟨r', μ', hrun', h'⟩ := sound_foldlM_reduceState is h₁
      fun x hx => his x (List.mem_cons_of_mem i hx)
    refine ⟨r', μ', ?_, h'⟩
    rw [List.foldlM_cons, hrun]
    exact hrun'

/-- **A reduction never fails**, and what comes out has the invariant before its new states are
closed. -/
lemma reduce_eq_ok (ha : a.Closed) :
    ∃ b μ, a.reduce = .ok (b.closeFrom a.size) ∧ Reduced a b μ := by
  have h₀ : Sound a ⟨a, {}⟩ (Meaning.initial a) := ⟨Reduced.initial ha, by intro is i hget; cases hget⟩
  obtain ⟨r, μ, hrun, h⟩ := sound_foldlM_reduceState (List.range a.size) h₀
    fun i hi => List.mem_range.mp hi
  refine ⟨r.automaton, μ, ?_, h.toReduced⟩
  rw [reduce, hrun]
  rfl

/-- **Both ways of closing an automaton** give a result with its moves in range. By all that the tables
hold, it accepts the same kinds as the closed automaton, from every state and along every text.

**Proof sketch.** The reduced automaton simulates the closed one: an old state stands for itself,
so that the two runs start from related places. -/
lemma closures_eq_ok (ha : a.InRange) (reduced : Bool) :
    ∃ b, a.closures reduced = .ok b ∧ b.InRange ∧ a.size ≤ b.size ∧
      ∀ s < a.size, (b.state s).kind = (a.close.state s).kind ∧
        ∀ text, b.acceptedKinds MoveTable.has (b.state s).epsilon text =
          a.close.acceptedKinds MoveTable.has (a.close.state s).epsilon text := by
  have hclosed := closed_close ha
  cases reduced with
  | false => exact ⟨a.close, rfl, hclosed.toInRange, by simp, fun s _ => ⟨rfl, fun _ => rfl⟩⟩
  | true =>
    obtain ⟨b, μ, hrun, hred⟩ := reduce_eq_ok hclosed
    refine ⟨b.closeFrom a.close.size, hrun, hred.inRange.closeFrom _, ?_, fun s hs => ?_⟩
    · simpa using hred.size_le
    have hs' : s < a.close.size := by rwa [size_close]
    constructor
    · rw [state_closeFrom_of_lt hs', hred.kind_old hs']
    · intro text
      have hplace : ∀ m ∈ [s], μ.place m := by simpa using hred.place_old hs'
      have hstands : ∀ o, o ∈ [s] ↔ ∃ m ∈ [s], μ.stands m o := by
        intro o
        simp [hred.stands_old hs']
      exact (hred.simulates hclosed).acceptedKinds_eq text hplace hstands (activeFrom_single _ s)
        (activeFrom_single _ s)

/-- **Both ways of closing a well formed automaton** give a well formed result. A search of its tables
finds all that they hold, so that a run by searching accepts the same kinds as the closed automaton. -/
lemma Automaton.WellFormed.closures_eq_ok (ha : a.WellFormed) (reduced : Bool) :
    ∃ b, a.closures reduced = .ok b ∧ b.WellFormed ∧ a.size ≤ b.size ∧
      ∀ s < a.size, (b.state s).kind = (a.close.state s).kind ∧
        ∀ text, b.acceptedKinds MoveTable.canMove (b.state s).epsilon text =
          a.close.acceptedKinds MoveTable.canMove (a.close.state s).epsilon text := by
  obtain ⟨b, hb, hrange, hsize, hsame⟩ := GrammarForge.closures_eq_ok ha.toInRange reduced
  have horder := ha.inOrder_closures hb
  have hclose : ∀ i, (a.close.state i).moves.InOrder :=
    ha.inOrder_closures (show a.closures false = .ok a.close from rfl)
  refine ⟨b, hb, ⟨hrange, horder⟩, hsize, fun s hs => ⟨(hsame s hs).1, fun text => ?_⟩⟩
  rw [acceptedKinds_canMove horder, acceptedKinds_canMove hclose]
  exact (hsame s hs).2 text

/-- **Reduction keeps what is matched.** Both ways of closing an automaton whose moves are in range give
a result, and from every state of the automaton the two results accept the same kinds along every text,
the kind of the state itself included. A state moves on a character if any part of its move table
contains it, whatever the order of the lists. If the lists are in order, as the fields of `MoveTable` are
documented to be, a search by words and by halving finds what they contain, and the runs by searching are
equal too.

**Proof sketch.** The reduced automaton simulates the closed one by all that the tables contain
(`closures_eq_ok`). If all tables are in order, so are those of both results, and then searching finds
what they contain. -/
theorem closures_accept_same_kinds (a : Automaton) (ha : a.InRange) :
    ∃ plain reduced, a.closures false = .ok plain ∧ a.closures true = .ok reduced ∧
      ∀ s < a.size, (reduced.state s).kind = (plain.state s).kind ∧
        (∀ text, reduced.acceptedKinds MoveTable.has (reduced.state s).epsilon text =
          plain.acceptedKinds MoveTable.has (plain.state s).epsilon text) ∧
        ((∀ i, (a.state i).moves.InOrder) → ∀ text,
          reduced.acceptedKinds MoveTable.canMove (reduced.state s).epsilon text =
            plain.acceptedKinds MoveTable.canMove (plain.state s).epsilon text) := by
  obtain ⟨reduced, hreduced, -, -, hsame⟩ := closures_eq_ok ha true
  refine ⟨a.close, reduced, rfl, hreduced, fun s hs => ⟨(hsame s hs).1, (hsame s hs).2, ?_⟩⟩
  intro horder text
  obtain ⟨b, hb, -, -, hsearched⟩ := Automaton.WellFormed.closures_eq_ok ⟨ha, horder⟩ true
  obtain rfl : reduced = b := Except.ok.inj (hreduced.symm.trans hb)
  exact (hsearched s hs).2 text

/-- The automaton of two tokens that begin alike, and of a third one with the same end as the
second: both ways of merging apply to it. -/
def sharedPrefix : Automaton where
  states := #[
    { epsilon := [1, 3, 5] },
    { moves := { ascii := BitVec.twoPow 128 97 }, next := some 2 },
    { isFinal := true, kind := some 1 },
    { moves := { ascii := BitVec.twoPow 128 97 }, next := some 4 },
    { isFinal := true, kind := some 2, epsilon := [0] },
    { moves := { chars := ['é'] }, next := some 4 }]

/-- Two of its states move on the same character, and two have the same next state; its tables are in
order, so that both kinds of runs are equal. -/
theorem closures_accept_same_kinds_sharedPrefix : sharedPrefix.InRange ∧
    (∀ i, (sharedPrefix.state i).moves.InOrder) ∧
    ∃ plain reduced, sharedPrefix.closures false = .ok plain ∧
      sharedPrefix.closures true = .ok reduced ∧
      ∀ s < sharedPrefix.size, (reduced.state s).kind = (plain.state s).kind ∧
        (∀ text, reduced.acceptedKinds MoveTable.has (reduced.state s).epsilon text =
          plain.acceptedKinds MoveTable.has (plain.state s).epsilon text) ∧
        ∀ text, reduced.acceptedKinds MoveTable.canMove (reduced.state s).epsilon text =
          plain.acceptedKinds MoveTable.canMove (plain.state s).epsilon text := by
  have hwf : sharedPrefix.WellFormed := by decide
  obtain ⟨plain, reduced, hplain, hreduced, hsame⟩ :=
    closures_accept_same_kinds sharedPrefix hwf.toInRange
  refine ⟨hwf.toInRange, hwf.inOrder, plain, reduced, hplain, hreduced, fun s hs => ?_⟩
  obtain ⟨hkind, hhas, hcan⟩ := hsame s hs
  exact ⟨hkind, hhas, hcan hwf.inOrder⟩

end GrammarForge
