import GrammarForge.Automaton.Construction
import GrammarForge.Proofs.Paths

set_option autoImplicit false

/-!
# Fragments of an automaton

A fragment has been added to an automaton for a language: all paths from its first state leave
it through its last state, with the texts of the language. This holds whatever is added later, as
long as only the last state gets new moves; so fragments can be built around each other.

## Main definitions

* `Grown` — an automaton to which states have been added.
* `Realizes` — a fragment has been added for a language.

## Main results

* `Realizes.wrap` — a fragment around another one, with ways to skip it and to repeat it.
-/

namespace GrammarForge

open Computability Automaton

/-! ## Growing an automaton -/

/-- States have been added to `a`; those there were are unchanged, and the new ones accept
nothing. -/
structure Grown (a a' : Automaton) : Prop where
  size_le : a.size ≤ a'.size
  state : ∀ {i}, i < a.size → a'.state i = a.state i
  kind : ∀ {i}, a.size ≤ i → (a'.state i).kind = none
  wellFormed : a.WellFormed → a'.WellFormed

namespace Automaton

variable {a : Automaton} {i j x y : Nat} {c : Char}

/-- An epsilon move is added to those that are there. -/
lemma silent_addEpsilon (hi : i < a.size) :
    (a.addEpsilon i j).Silent x y ↔ a.Silent x y ∨ (x = i ∧ y = j) := by
  by_cases hx : x = i
  · subst hx
    rw [Silent, addEpsilon, state_modify_self _ hi, State.addEpsilon, mem_insertSorted, Silent]
    simp [or_comm]
  · rw [Silent, addEpsilon, state_modify_of_ne _ (Ne.symm hx), Silent]
    simp [hx]

/-- Other states do not change. -/
lemma state_addEpsilon_of_ne (h : x ≠ i) : (a.addEpsilon i j).state x = a.state x :=
  state_modify_of_ne _ (Ne.symm h)

/-- Epsilon moves are all that changes. -/
lemma state_addEpsilon (a : Automaton) (i j x : Nat) :
    ∃ es, (a.addEpsilon i j).state x = { a.state x with epsilon := es } := by
  by_cases hx : x = i
  · rcases Nat.lt_or_ge x a.size with hlt | hge
    · subst hx
      exact ⟨_, state_modify_self _ hlt⟩
    · refine ⟨[], ?_⟩
      rw [state_of_size_le hge, state_of_size_le (by simpa using hge)]
  · exact ⟨(a.state x).epsilon, state_addEpsilon_of_ne hx⟩

/-- An automaton with epsilon moves added. -/
def addEdges (a : Automaton) (es : List (Nat × Nat)) : Automaton :=
  es.foldl (fun a e => a.addEpsilon e.1 e.2) a

/-- Adding epsilon moves adds no state. -/
@[simp]
lemma size_addEdges (es : List (Nat × Nat)) : ∀ a : Automaton, (a.addEdges es).size = a.size := by
  induction es with
  | nil => exact fun a => rfl
  | cons e es ih => exact fun a => (ih _).trans (size_addEpsilon a)

/-- The added epsilon moves are there together with the old ones. -/
lemma silent_addEdges (es : List (Nat × Nat)) : ∀ {a : Automaton}, (∀ e ∈ es, e.1 < a.size) →
    ((a.addEdges es).Silent x y ↔ a.Silent x y ∨ (x, y) ∈ es) := by
  induction es with
  | nil => intro a _; simp [addEdges]
  | cons e es ih =>
    intro a h
    obtain ⟨he, hes⟩ := List.forall_mem_cons.mp h
    rw [addEdges, List.foldl_cons, ← addEdges, ih (by simpa using hes), silent_addEpsilon he,
      List.mem_cons, Prod.ext_iff, or_assoc]

/-- A state from which no move is added does not change. -/
lemma state_addEdges_of_notMem (es : List (Nat × Nat)) : ∀ {a : Automaton},
    x ∉ es.map Prod.fst → (a.addEdges es).state x = a.state x := by
  induction es with
  | nil => exact fun _ => rfl
  | cons e es ih =>
    intro a h
    rw [List.map_cons, List.mem_cons, not_or] at h
    rw [addEdges, List.foldl_cons, ← addEdges, ih h.2, state_addEpsilon_of_ne h.1]

/-- Epsilon moves are all that changes. -/
lemma state_addEdges (es : List (Nat × Nat)) : ∀ (a : Automaton) (x : Nat),
    ∃ ns, (a.addEdges es).state x = { a.state x with epsilon := ns } := by
  induction es with
  | nil => exact fun a x => ⟨_, rfl⟩
  | cons e es ih =>
    intro a x
    obtain ⟨ns, hns⟩ := ih (a.addEpsilon e.1 e.2) x
    obtain ⟨ns', hns'⟩ := a.state_addEpsilon e.1 e.2 x
    exact ⟨ns, by rw [addEdges, List.foldl_cons, ← addEdges, hns, hns']⟩

/-- Epsilon moves change no moves on characters. -/
lemma moves_addEdges {es : List (Nat × Nat)} : (a.addEdges es).Moves x c y ↔ a.Moves x c y := by
  obtain ⟨ns, h⟩ := state_addEdges es a x
  rw [Moves, Moves, h]

/-- Epsilon moves between states of the automaton keep it well formed.

**Proof sketch.** Only epsilon sets change, by states in range; next states and tables are as they were.
-/
lemma WellFormed.addEdges (h : a.WellFormed) {es : List (Nat × Nat)}
    (hes : ∀ e ∈ es, e.1 < a.size ∧ e.2 < a.size) : (a.addEdges es).WellFormed := by
  refine ⟨⟨?_, ?_⟩, ?_⟩
  · intro x y hy
    rw [size_addEdges]
    rcases (silent_addEdges es fun e he => (hes e he).1).mp hy with hy | hy
    · exact h.epsilon x y hy
    · exact (hes (x, y) hy).2
  · intro x n hn
    obtain ⟨ns, hns⟩ := state_addEdges es a x
    rw [hns] at hn
    rw [size_addEdges]
    exact h.next x n hn
  · intro x
    obtain ⟨ns, hns⟩ := state_addEdges es a x
    rw [hns]
    exact h.inOrder x

/-- A state without moves has no epsilon moves either, if it is an empty one. -/
lemma not_silent_of_empty (h : a.state x = {}) : ¬ a.Silent x y := by
  simp [Silent, h]

/-- An empty state has no moves. -/
lemma not_moves_of_empty (h : a.state x = {}) : ¬ a.Moves x c y := by
  simp [Moves, h]

/-- Outside of an automaton all states are empty, so one that is added changes none. -/
lemma state_push_empty (a : Automaton) (i : Nat) : (a.push {}).state i = a.state i := by
  rcases Nat.lt_trichotomy i a.size with hi | rfl | hi
  · exact state_push_of_lt _ hi
  · rw [state_push_size, state_of_size_le le_rfl]
  · rw [state_of_size_le hi.le, state_of_size_le (by simpa using hi)]

/-- Changing a state depends on what becomes of that state only.

**Proof sketch.** Place by place: the state at the changed place is the same on both sides, and all
others are untouched. -/
lemma modify_congr {f g : State → State} (h : f (a.state i) = g (a.state i)) :
    a.modify i f = a.modify i g := by
  have hext : ∀ x : Nat, (a.states.modify i f)[x]? = (a.states.modify i g)[x]? := by
    intro x
    rw [Array.getElem?_modify, Array.getElem?_modify]
    split_ifs with hx
    · subst hx
      rw [state_eq_getElem?] at h
      cases hi : a.states[i]? with
      | none => rfl
      | some s =>
        rw [hi, Option.getD_some] at h
        rw [Option.map_some, Option.map_some, h]
    · rfl
  exact congrArg Automaton.mk (Array.ext_getElem? hext)

end Automaton

namespace Grown

variable {a a' a'' : Automaton}

/-- Nothing is added. -/
lemma refl (a : Automaton) : Grown a a :=
  ⟨le_rfl, fun _ => rfl, fun h => by rw [state_of_size_le h], id⟩

/-- What grows goes on growing. -/
lemma trans (h : Grown a a') (h' : Grown a' a'') : Grown a a'' where
  size_le := h.size_le.trans h'.size_le
  state hi := (h'.state (hi.trans_le h.size_le)).trans (h.state hi)
  kind := by
    intro i hi
    rcases Nat.lt_or_ge i a'.size with hlt | hge
    · rw [h'.state hlt, h.kind hi]
    · exact h'.kind hge
  wellFormed := h'.wellFormed ∘ h.wellFormed

/-- An empty state is added.

**Proof sketch.** A new state is empty, which is what stood beyond the end before. -/
lemma push (a : Automaton) : Grown a (a.push {}) := by
  refine ⟨by simp, fun _ => state_push_empty a _, ?_, fun h => ⟨⟨?_, ?_⟩, ?_⟩⟩
  · intro i hi
    rw [state_push_empty, state_of_size_le hi]
  · intro i j hj
    rw [state_push_empty] at hj
    exact (h.epsilon i j hj).trans_le (by simp)
  · intro i n hn
    rw [state_push_empty] at hn
    exact (h.next i n hn).trans_le (by simp)
  · intro i
    rw [state_push_empty]
    exact h.inOrder i

/-- The two states of a new fragment are added. -/
lemma newFragment (a : Automaton) : Grown a a.newFragment.2 :=
  (push a).trans (push _)

/-- Epsilon moves are added between new states.

**Proof sketch.** The sources of the new moves are new states, so that the old states are as they were;
only epsilon sets change. -/
lemma addEdges (h : Grown a a') {es : List (Nat × Nat)}
    (hes : ∀ e ∈ es, a.size ≤ e.1 ∧ e.1 < a'.size ∧ e.2 < a'.size) : Grown a (a'.addEdges es) where
  size_le := by rw [size_addEdges]; exact h.size_le
  state := by
    intro i hi
    rw [state_addEdges_of_notMem, h.state hi]
    intro hmem
    obtain ⟨e, he, rfl⟩ := List.mem_map.mp hmem
    exact absurd hi (Nat.not_lt.mpr (hes e he).1)
  kind := by
    intro i hi
    obtain ⟨ns, hns⟩ := state_addEdges es a' i
    rw [hns]
    exact h.kind hi
  wellFormed ha := (h.wellFormed ha).addEdges fun e he => (hes e he).2

end Grown

/-- A new fragment takes two states. -/
@[simp]
lemma size_newFragment (a : Automaton) : a.newFragment.2.size = a.size + 2 := by
  simp [newFragment]

/-- The states of a new fragment are the next two. -/
lemma fst_newFragment (a : Automaton) : a.newFragment.1 = ⟨a.size, a.size + 1⟩ := rfl

/-- The new states of a fragment are empty. -/
lemma state_newFragment (a : Automaton) {i : Nat} (hi : a.size ≤ i) :
    a.newFragment.2.state i = {} := by
  rcases Nat.lt_trichotomy i (a.size + 1) with h | rfl | h
  · obtain rfl : i = a.size := by omega
    rw [newFragment, state_push_of_lt _ (by simp), state_push_size]
  · have h := (a.push {}).state_push_size {}
    rwa [size_push] at h
  · exact state_of_size_le (by rw [size_newFragment]; omega)

/-! ## Fragments -/

/-- **A fragment for the language `L` has been added to `a`.** Its last state is still empty.
In every automaton `b` that has the new states, but may have moves out of the last one, every path
from the first state to a target elsewhere goes through the last one. -/
structure Realizes (a a' : Automaton) (f : Fragment) (L : Language Char) : Prop
    extends Grown a a' where
  first_mem : a.size ≤ f.first ∧ f.first < a'.size
  last_mem : a.size ≤ f.last ∧ f.last < a'.size
  last_state : a'.state f.last = {}
  leads : ∀ {b : Automaton} {target : Nat → Prop},
    (∀ i, a.size ≤ i → i < a'.size → i ≠ f.last → b.state i = a'.state i) →
    (∀ i, a.size ≤ i → i < a'.size → i ≠ f.last → ¬ target i) → b.Leads target f.first L f.last

variable {a a' : Automaton} {f g : Fragment} {L : Language Char}

/-- Epsilon moves and moves depend on the state only. -/
lemma silent_congr {b b' : Automaton} {i : Nat} (h : b.state i = b'.state i) (j : Nat) :
    b.Silent i j ↔ b'.Silent i j := by
  rw [Silent, Silent, h]

/-- Moves depend only on the state. -/
lemma moves_congr {b b' : Automaton} {i : Nat} (h : b.state i = b'.state i) (c : Char) (j : Nat) :
    b.Moves i c j ↔ b'.Moves i c j := by
  rw [Moves, Moves, h]

/-- A fragment for the empty text: an epsilon move from the first to the last state. -/
lemma realizes_emptyText (a : Automaton) :
    Realizes a (a.newFragment.2.addEdges [(a.size, a.size + 1)]) ⟨a.size, a.size + 1⟩ 1 := by
  have hempty : ∀ i, a.size ≤ i → a.newFragment.2.state i = {} := fun i => state_newFragment a
  refine ⟨(Grown.newFragment a).addEdges (by simp), by simp, by simp, ?_, ?_⟩
  · rw [state_addEdges_of_notMem _ (by simp), hempty _ (by simp)]
  · intro b target hb ht
    have hstate := hb a.size le_rfl (by simp) (by simp)
    refine Leads.step (ht a.size le_rfl (by simp) (by simp)) (fun j => ?_) (fun c j hmove => ?_)
    · rw [silent_congr hstate, silent_addEdges _ (by simp)]
      simp [not_silent_of_empty (hempty a.size le_rfl)]
    · rw [moves_congr hstate, moves_addEdges] at hmove
      exact not_moves_of_empty (hempty a.size le_rfl) hmove

/-- Ways around another one: from `start` epsilon moves lead into it, and with `skip` past it; at
its end they lead out, and with `again` back to its beginning.

**Proof sketch.** First the way from the inner beginning to the new end, once or several times. Then,
with `skip`, the empty word as another branch from the start. -/
lemma Leads.wrap {skip again : Prop} [Decidable skip] [Decidable again] {b : Automaton}
    {target : Nat → Prop} {start first last out : Nat} (h : b.Leads target first L last)
    (hstart : ¬ target start) (hstart_moves : ∀ c j, ¬ b.Moves start c j)
    (hstart_edges : ∀ j, b.Silent start j ↔ j = first ∨ (skip ∧ j = out))
    (hlast : ¬ target last) (hlast_moves : ∀ c j, ¬ b.Moves last c j)
    (hlast_edges : ∀ j, b.Silent last j ↔ j = out ∨ (again ∧ j = first)) :
    b.Leads target start ((if skip then 1 else 0) + if again then L * L∗ else L) out := by
  have hout : b.Leads target first (if again then L * L∗ else L) out := by
    split_ifs with hagain
    · exact h.loop hlast (by simpa [hagain] using hlast_edges) hlast_moves
    · simpa using h.trans (Leads.step hlast (by simpa [hagain] using hlast_edges) hlast_moves)
  by_cases hskip : skip
  · have hbranch := Leads.branch [(out, 1), (first, _)] hstart
      (by simpa [hskip, or_comm] using hstart_edges) hstart_moves
      (by simpa using ⟨Leads.refl b target out, hout⟩)
    simpa [hskip] using hbranch
  · have hbranch := Leads.branch [(first, _)] hstart (by simpa [hskip] using hstart_edges)
      hstart_moves (by simpa using hout)
    simpa [hskip] using hbranch

/-- **A fragment around another one.** From its first state epsilon moves lead into the inner
fragment, and with `skip` past it; at its end they lead out, and with `again` back to its
beginning.

**Proof sketch.** Within any automaton that agrees on the new states, the inner fragment leads from its
first state to its last one. The added epsilon moves are the only ones at the new first state and at the
inner last one, and they lead around it as they should. -/
lemma Realizes.wrap {skip again : Prop} [Decidable skip] [Decidable again]
    {es : List (Nat × Nat)} (h : Realizes a.newFragment.2 a' g L)
    (hmem : ∀ x y, (x, y) ∈ es ↔ (x = a.size ∧ (y = g.first ∨ (skip ∧ y = a.size + 1))) ∨
      (x = g.last ∧ (y = a.size + 1 ∨ (again ∧ y = g.first)))) :
    Realizes a (a'.addEdges es) ⟨a.size, a.size + 1⟩
      ((if skip then 1 else 0) + if again then L * L∗ else L) := by
  have hfirst := h.first_mem
  have hlast := h.last_mem
  rw [size_newFragment] at hfirst hlast
  have hbounds : ∀ e ∈ es, a.size ≤ e.1 ∧ e.1 < a'.size ∧ e.2 < a'.size := by
    rintro ⟨x, y⟩ he
    rcases (hmem x y).mp he with ⟨rfl, h⟩ | ⟨rfl, h⟩ <;> simp only <;> omega
  have hsources : ∀ i, i ≠ a.size → i ≠ g.last → i ∉ es.map Prod.fst := by
    intro i h₁ h₂ hi
    obtain ⟨⟨x, y⟩, he, rfl⟩ := List.mem_map.mp hi
    rcases (hmem x y).mp he with ⟨h, -⟩ | ⟨h, -⟩
    · exact h₁ h
    · exact h₂ h
  have hempty : ∀ i, a.size ≤ i → i < a.size + 2 → a'.state i = {} := by
    intro i hi hi'
    rw [h.state (by simpa using hi'), state_newFragment a hi]
  have hsilent : ∀ x y, a'.state x = {} → ((a'.addEdges es).Silent x y ↔ (x, y) ∈ es) := by
    intro x y hx
    rw [silent_addEdges es fun e he => (hbounds e he).2.1]
    simp [not_silent_of_empty hx]
  have hgrown : Grown a (a'.addEdges es) := ((Grown.newFragment a).trans h.toGrown).addEdges hbounds
  refine ⟨hgrown, ⟨le_rfl, ?_⟩, ⟨Nat.le_succ _, ?_⟩, ?_, ?_⟩
  · rw [size_addEdges]
    show a.size < a'.size
    omega
  · rw [size_addEdges]
    show a.size + 1 < a'.size
    omega
  · show (a'.addEdges es).state (a.size + 1) = {}
    rw [state_addEdges_of_notMem es (hsources _ (by omega) (by omega)), hempty _ (by omega) (by omega)]
  · intro b target hb htarget
    simp only [size_addEdges] at hb htarget
    have hinner : b.Leads target g.first L g.last := by
      refine h.leads (fun i hi hi' hne => ?_) (fun i hi hi' hne => ?_)
      · rw [size_newFragment] at hi
        rw [hb i (by omega) hi' (by omega), state_addEdges_of_notMem es (hsources i (by omega) hne)]
      · rw [size_newFragment] at hi
        exact htarget i (by omega) hi' (by omega)
    -- neither the first state nor the end of the inner fragment has moves of its own
    have hmoves : ∀ x, a.size ≤ x → x < a'.size → x ≠ a.size + 1 → a'.state x = {} →
        ∀ c j, ¬ b.Moves x c j := by
      intro x hx hx' hne hxe c j hmove
      rw [moves_congr (hb x hx hx' hne), moves_addEdges] at hmove
      exact not_moves_of_empty hxe hmove
    have hedges : ∀ x, a.size ≤ x → x < a'.size → x ≠ a.size + 1 → a'.state x = {} →
        ∀ j, b.Silent x j ↔ (x, j) ∈ es := by
      intro x hx hx' hne hxe j
      rw [silent_congr (hb x hx hx' hne), hsilent _ _ hxe]
    have hne : a.size ≠ g.last := by omega
    have hstart := hempty a.size le_rfl (by omega)
    refine Leads.wrap hinner (htarget a.size le_rfl (by omega) (by simp))
      (hmoves a.size le_rfl (by omega) (by simp) hstart) (fun j => ?_)
      (htarget g.last (by omega) (by omega) (by omega))
      (hmoves g.last (by omega) (by omega) (by omega) h.last_state) (fun j => ?_)
    · rw [hedges a.size le_rfl (by omega) (by simp) hstart, hmem]
      simp [hne]
    · rw [hedges g.last (by omega) (by omega) (by omega) h.last_state, hmem]
      simp [hne.symm]

/-! ## Building on from a state -/

/-- States have been added to `a`, and of the states there were only `i` has got new moves. -/
structure GrownBut (i : Nat) (a a' : Automaton) : Prop where
  size_le : a.size ≤ a'.size
  state : ∀ {x}, x < a.size → x ≠ i → a'.state x = a.state x
  kind : ∀ {x}, a.size ≤ x → (a'.state x).kind = none
  kind_self : (a'.state i).kind = (a.state i).kind
  wellFormed : a.WellFormed → a'.WellFormed

namespace GrownBut

variable {a'' : Automaton} {i j : Nat}

/-- Nothing is added. -/
lemma refl (i : Nat) (a : Automaton) : GrownBut i a a :=
  ⟨le_rfl, fun _ _ => rfl, fun h => by rw [state_of_size_le h], rfl, id⟩

/-- What grows but for one state goes on growing, at the same state or at one of the new ones.

**Proof sketch.** By cases on the state: another old one was changed by neither step, and the given one
keeps its kind in both. -/
lemma trans (h : GrownBut i a a') (h' : GrownBut j a' a'') (hj : j = i ∨ a.size ≤ j) :
    GrownBut i a a'' where
  size_le := h.size_le.trans h'.size_le
  state := by
    intro x hx hxi
    have hxj : x ≠ j := by
      rcases hj with rfl | hj
      · exact hxi
      · exact Nat.ne_of_lt (hx.trans_le hj)
    rw [h'.state (hx.trans_le h.size_le) hxj, h.state hx hxi]
  kind := by
    intro x hx
    by_cases hxj : x = j
    · rw [hxj, h'.kind_self, ← hxj, h.kind hx]
    · rcases Nat.lt_or_ge x a'.size with hlt | hge
      · rw [h'.state hlt hxj, h.kind hx]
      · exact h'.kind hge
  kind_self := by
    by_cases hij : i = j
    · rw [hij, h'.kind_self, ← hij, h.kind_self]
    · rcases Nat.lt_or_ge i a'.size with hlt | hge
      · rw [h'.state hlt hij, h.kind_self]
      · rw [h'.kind hge, state_of_size_le (h.size_le.trans hge)]
  wellFormed := h'.wellFormed ∘ h.wellFormed

end GrownBut

namespace Grown

variable {i : Nat}

/-- Only a state that was added before has got new moves. -/
lemma growBut {a₀ : Automaton} (h : Grown a₀ a) (h' : GrownBut i a a') (hi : a₀.size ≤ i) :
    Grown a₀ a' where
  size_le := h.size_le.trans h'.size_le
  state hx := by
    rw [h'.state (hx.trans_le h.size_le) (Nat.ne_of_lt (hx.trans_le hi)), h.state hx]
  kind := by
    intro x hx
    by_cases hxi : x = i
    · rw [hxi, h'.kind_self, ← hxi, h.kind hx]
    · rcases Nat.lt_or_ge x a.size with hlt | hge
      · rw [h'.state hlt hxi, h.kind hx]
      · exact h'.kind hge
  wellFormed := h'.wellFormed ∘ h.wellFormed

/-- Epsilon moves are added to one old state, and between new ones.

**Proof sketch.** An old state other than the given one is not the source of a new move, so that it is
as it was; and epsilon moves change no kind. -/
lemma butEdges (h : Grown a a') {es : List (Nat × Nat)}
    (hes : ∀ e ∈ es, (e.1 = i ∨ a.size ≤ e.1) ∧ e.1 < a'.size ∧ e.2 < a'.size) :
    GrownBut i a (a'.addEdges es) where
  size_le := by rw [size_addEdges]; exact h.size_le
  state := by
    intro x hx hxi
    rw [state_addEdges_of_notMem, h.state hx]
    intro hmem
    obtain ⟨e, he, rfl⟩ := List.mem_map.mp hmem
    rcases (hes e he).1 with heq | hle
    · exact hxi heq
    · exact absurd hx (Nat.not_lt.mpr hle)
  kind := by
    intro x hx
    obtain ⟨ns, hns⟩ := state_addEdges es a' x
    rw [hns]
    exact h.kind hx
  kind_self := by
    obtain ⟨ns, hns⟩ := state_addEdges es a' i
    rw [hns]
    rcases Nat.lt_or_ge i a.size with hlt | hge
    · rw [h.state hlt]
    · rw [state_of_size_le hge]
      exact h.kind hge
  wellFormed ha := (h.wellFormed ha).addEdges fun e he => (hes e he).2

end Grown

/-! ## Fragments in a row -/

/-- **A row of fragments** has been built from the state `i` on, and ends at `k`, whose state is
still empty. -/
structure Chained (a a' : Automaton) (i k : Nat) (L : Language Char) : Prop
    extends GrownBut i a a' where
  last_mem : (k = i ∨ a.size ≤ k) ∧ k < a'.size
  last_state : a'.state k = {}
  leads : ∀ {b : Automaton} {target : Nat → Prop},
    (∀ x, x = i ∨ (a.size ≤ x ∧ x < a'.size) → x ≠ k → b.state x = a'.state x) →
    (∀ x, x = i ∨ (a.size ≤ x ∧ x < a'.size) → x ≠ k → ¬ target x) → b.Leads target i L k

/-- A row of no fragments stays where it is and reads the empty word. -/
lemma Chained.nil {i : Nat} (hi : i < a.size) (hempty : a.state i = {}) : Chained a a i i 1 :=
  ⟨GrownBut.refl i a, ⟨Or.inl rfl, hi⟩, hempty, fun _ _ => Leads.refl _ _ i⟩

/-- One more fragment at the front.

**Proof sketch.** The first fragment leads from its first state to its last one, also in the bigger
automaton, where only its last state has changed; there the row goes on. The word is read in two parts.
-/
lemma Chained.cons {a₁ : Automaton} {i k : Nat} {M : Language Char} (hi : i < a.size)
    (hempty : a.state i = {}) (h : Realizes a a₁ g L)
    (h' : Chained (a₁.addEdges [(i, g.first)]) a' g.last k M) : Chained a a' i k (L * M) := by
  have hfirst := h.first_mem
  have hlast := h.last_mem
  have hsize := h'.size_le
  have hk := h'.last_mem
  rw [size_addEdges] at hsize hk
  have hle := h.size_le
  have hgrown : GrownBut i a (a₁.addEdges [(i, g.first)]) :=
    h.toGrown.butEdges (by simp; omega)
  refine ⟨hgrown.trans h'.toGrownBut (Or.inr hlast.1), ?_, h'.last_state, ?_⟩
  · omega
  · intro b target hb htarget
    -- at the states of the first fragment, `b` is as when that was built
    have hold : ∀ x, x < a₁.size → x ≠ i → x ≠ g.last → a'.state x = a₁.state x := by
      intro x hx hxi hxl
      rw [h'.state (by simpa using hx) hxl, state_addEdges_of_notMem _ (by simpa using hxi)]
    have hinner : b.Leads target g.first L g.last := by
      refine h.leads (fun x hx hx' hne => ?_) (fun x hx hx' hne => ?_)
      · rw [hb x (Or.inr ⟨hx, by omega⟩) (by omega), hold x hx' (by omega) hne]
      · exact htarget x (Or.inr ⟨hx, by omega⟩) (by omega)
    have hrest : b.Leads target g.last M k := by
      refine h'.leads (fun x hx hne => ?_) (fun x hx hne => ?_)
      · rw [size_addEdges] at hx
        exact hb x (by omega) hne
      · rw [size_addEdges] at hx
        exact htarget x (by omega) hne
    have hstate : b.state i = (a₁.addEdges [(i, g.first)]).state i := by
      rw [hb i (Or.inl rfl) (by omega), h'.state (by rw [size_addEdges]; omega) (by omega)]
    have hempty' : a₁.state i = {} := by rw [h.state hi, hempty]
    have hstep : b.Leads target i 1 g.first := by
      refine Leads.step (htarget i (Or.inl rfl) (by omega)) (fun j => ?_) (fun c j hmove => ?_)
      · rw [silent_congr hstate, silent_addEdges _ (by simp; omega)]
        simp [not_silent_of_empty hempty']
      · rw [moves_congr hstate, moves_addEdges] at hmove
        exact not_moves_of_empty hempty' hmove
    simpa using hstep.trans (hinner.trans hrest)

/-- A row of fragments inside a new one.

**Proof sketch.** The row begins at the first state of the new fragment. From the end of the row, where
there were no moves, the one added epsilon move leads to the last state. -/
lemma Chained.realizes {k : Nat} (h : Chained a.newFragment.2 a' a.size k L) :
    Realizes a (a'.addEdges [(k, a.size + 1)]) ⟨a.size, a.size + 1⟩ L := by
  have hk := h.last_mem
  have hsize := h.size_le
  rw [size_newFragment] at hk hsize
  have hgrown : Grown a a' := (Grown.newFragment a).growBut h.toGrownBut le_rfl
  have hlast : a'.state (a.size + 1) = {} := by
    rw [h.state (by simp) (by simp), state_newFragment a (by simp)]
  refine ⟨hgrown.addEdges (by simp; omega), by simp; omega, by simp; omega, ?_, ?_⟩
  · rw [state_addEdges_of_notMem _ (by simp; omega), hlast]
  · intro b target hb htarget
    simp only [size_addEdges] at hb htarget
    have hrow : b.Leads target a.size L k := by
      refine h.leads (fun x hx hne => ?_) (fun x hx hne => ?_)
      · rw [size_newFragment] at hx
        rw [hb x (by omega) (by omega) (by omega), state_addEdges_of_notMem _ (by simpa using hne)]
      · rw [size_newFragment] at hx
        exact htarget x (by omega) (by omega) (by omega)
    have hstate := hb k (by omega) (by omega) (by omega)
    have hstep : b.Leads target k 1 (a.size + 1) := by
      refine Leads.step (htarget k (by omega) (by omega) (by omega)) (fun j => ?_)
        (fun c j hmove => ?_)
      · rw [silent_congr hstate, silent_addEdges _ (by simp; omega)]
        simp [not_silent_of_empty h.last_state]
      · rw [moves_congr hstate, moves_addEdges] at hmove
        exact not_moves_of_empty h.last_state hmove
    simpa using hrow.trans hstep

/-! ## Fragments side by side -/

/-- **Fragments side by side** have been built between the states `p` and `q`. -/
structure Fanned (a a' : Automaton) (p q : Nat) (es : List (Nat × Language Char)) : Prop
    extends GrownBut p a a' where
  silent : ∀ {y}, a'.Silent p y ↔ a.Silent p y ∨ y ∈ es.map Prod.fst
  moves : ∀ {c y}, a'.Moves p c y ↔ a.Moves p c y
  leads : ∀ e ∈ es, ∀ {b : Automaton} {target : Nat → Prop},
    (∀ x, a.size ≤ x → x < a'.size → b.state x = a'.state x) →
    (∀ x, a.size ≤ x → x < a'.size → ¬ target x) → b.Leads target e.1 e.2 q

/-- No fragments side by side. -/
lemma Fanned.nil (a : Automaton) (p q : Nat) : Fanned a a p q [] :=
  ⟨GrownBut.refl p a, by simp, Iff.rfl, by simp⟩

/-- One more fragment beside the others.

**Proof sketch.** The epsilon moves at the common start are those to the first fragment and those to the
others. Each fragment leads to the common end, since nothing else was added at its states. -/
lemma Fanned.cons {a₁ : Automaton} {p q : Nat} {es : List (Nat × Language Char)} (hp : p < a.size)
    (hq : q < a.size) (h : Realizes a a₁ g L)
    (h' : Fanned (a₁.addEdges [(p, g.first), (g.last, q)]) a' p q es) :
    Fanned a a' p q ((g.first, L) :: es) := by
  have hfirst := h.first_mem
  have hlast := h.last_mem
  have hsize := h'.size_le
  rw [size_addEdges] at hsize
  have hle := h.size_le
  have hsources : ∀ e ∈ [(p, g.first), (g.last, q)], e.1 < a₁.size := by simp; omega
  have hgrown : GrownBut p a (a₁.addEdges [(p, g.first), (g.last, q)]) :=
    h.toGrown.butEdges (by simp; omega)
  have hold : ∀ x, x < a₁.size → x ≠ p → x ≠ g.last → a'.state x = a₁.state x := by
    intro x hx hxp hxl
    rw [h'.state (by simpa using hx) hxp, state_addEdges_of_notMem _ (by simp [hxp, hxl])]
  refine ⟨hgrown.trans h'.toGrownBut (Or.inl rfl), ?_, ?_, ?_⟩
  · intro y
    have hne : p ≠ g.last := by omega
    rw [h'.silent, silent_addEdges _ hsources, silent_congr (h.state hp)]
    simp [hne, or_assoc]
  · intro c y
    rw [h'.moves, moves_addEdges, moves_congr (h.state hp)]
  · intro e he b target hb htarget
    rcases List.mem_cons.mp he with rfl | he
    · have hinner : b.Leads target g.first L g.last := by
        refine h.leads (fun x hx hx' hne => ?_) (fun x hx hx' hne => ?_)
        · rw [hb x hx (by omega), hold x hx' (by omega) hne]
        · exact htarget x hx (by omega)
      have hstate : b.state g.last = (a₁.addEdges [(p, g.first), (g.last, q)]).state g.last := by
        rw [hb g.last (by omega) (by omega), h'.state (by rw [size_addEdges]; omega) (by omega)]
      have hstep : b.Leads target g.last 1 q := by
        refine Leads.step (htarget g.last (by omega) (by omega)) (fun j => ?_) (fun c j hmove => ?_)
        · have hne : g.last ≠ p := by omega
          rw [silent_congr hstate, silent_addEdges _ hsources]
          simp [not_silent_of_empty h.last_state, hne]
        · rw [moves_congr hstate, moves_addEdges] at hmove
          exact not_moves_of_empty h.last_state hmove
      simpa using hinner.trans hstep
    · refine h'.leads e he (fun x hx hx' => ?_) (fun x hx hx' => ?_)
      · rw [size_addEdges] at hx
        exact hb x (by omega) hx'
      · rw [size_addEdges] at hx
        exact htarget x (by omega) hx'

/-- Fragments side by side inside a new one.

**Proof sketch.** The start has no moves but those to the fragments, so that a word is read by one of
them; the languages are added up. -/
lemma Fanned.realizes {es : List (Nat × Language Char)}
    (h : Fanned a.newFragment.2 a' a.size (a.size + 1) es) :
    Realizes a a' ⟨a.size, a.size + 1⟩ (es.map Prod.snd).sum := by
  have hsize := h.size_le
  rw [size_newFragment] at hsize
  have hempty : a.newFragment.2.state a.size = {} := state_newFragment a le_rfl
  refine ⟨(Grown.newFragment a).growBut h.toGrownBut le_rfl, by simp; omega, by simp; omega, ?_, ?_⟩
  · rw [h.state (by simp) (by simp), state_newFragment a (by simp)]
  · intro b target hb htarget
    have hstate := hb a.size le_rfl (by omega) (by simp)
    refine Leads.branch es (htarget a.size le_rfl (by omega) (by simp)) (fun j => ?_)
      (fun c j hmove => ?_) (fun e he => ?_)
    · rw [silent_congr hstate, h.silent]
      simp [not_silent_of_empty hempty]
    · rw [moves_congr hstate, h.moves] at hmove
      exact not_moves_of_empty hempty hmove
    · refine h.leads e he (fun x hx hx' => ?_) (fun x hx hx' => ?_)
      · rw [size_newFragment] at hx
        exact hb x (by omega) hx' (by simp; omega)
      · rw [size_newFragment] at hx
        exact htarget x (by omega) hx' (by simp; omega)

/-! ## Texts -/

/-- Lets a state move on the characters of a table. -/
def Automaton.setMoves (a : Automaton) (i : Nat) (t : MoveTable) (next : Nat) : Automaton :=
  a.modify i fun s => { s with moves := t, next := some next }

/-- A change that gives an empty state moves. -/
lemma modify_eq_setMoves {i q : Nat} {t : MoveTable} (change : State → State)
    (h : a.state i = {}) (hchange : change {} = { moves := t, next := some q }) :
    a.modify i change = a.setMoves i t q :=
  modify_congr (by rw [h, hchange])

/-- Moves are given to one old state.

**Proof sketch.** Only the given state has changed, and its kind is as it was. Its moves lead to a state
in range and its table is in order. -/
lemma Grown.butMoves {i q : Nat} {t : MoveTable} (h : Grown a a') (hi : i < a.size)
    (hq : q < a'.size) (ht : t.InOrder) : GrownBut i a (a'.setMoves i t q) := by
  have hi' : i < a'.size := hi.trans_le h.size_le
  have hself : (a'.setMoves i t q).state i = { a'.state i with moves := t, next := some q } :=
    state_modify_self _ hi'
  have hother : ∀ {x}, x ≠ i → (a'.setMoves i t q).state x = a'.state x :=
    fun hx => state_modify_of_ne _ (Ne.symm hx)
  have hsize : (a'.setMoves i t q).size = a'.size := size_modify _ _
  refine ⟨by rw [hsize]; exact h.size_le, ?_, ?_, ?_, fun ha => ?_⟩
  · intro x hx hxi
    rw [hother hxi, h.state hx]
  · intro x hx
    rw [hother (by omega), h.kind hx]
  · rw [hself, h.state hi]
  · have hwf := h.wellFormed ha
    refine ⟨⟨?_, ?_⟩, ?_⟩ <;> intro x <;> by_cases hx : x = i
    · rw [hx, hself, hsize]
      exact hwf.epsilon i
    · rw [hother hx, hsize]
      exact hwf.epsilon x
    · rw [hx, hself, hsize]
      rintro n hn
      cases hn
      exact hq
    · rw [hother hx, hsize]
      exact hwf.next x
    · rw [hx, hself]
      exact ht
    · rw [hother hx]
      exact hwf.inOrder x

/-- **A row of moves** has been built from the state `i` to the state `q`. -/
structure Spelled (a a' : Automaton) (i q : Nat) (L : Language Char) : Prop
    extends GrownBut i a a' where
  leads : ∀ {b : Automaton} {target : Nat → Prop},
    (∀ x, x = i ∨ (a.size ≤ x ∧ x < a'.size) → b.state x = a'.state x) →
    (∀ x, x = i ∨ (a.size ≤ x ∧ x < a'.size) → ¬ target x) → b.Leads target i L q

/-- A state that was empty, and has moves now. -/
lemma leads_setMoves {b : Automaton} {target : Nat → Prop} {i q : Nat} {t : MoveTable}
    (hi : i < a.size) (hempty : a.state i = {}) (ht : t.InOrder)
    (hb : b.state i = (a.setMoves i t q).state i) (htarget : ¬ target i) :
    b.Leads target i (Regex.letters fun c => t.has c) q := by
  have hstate : b.state i = { moves := t, next := some q } := by
    rw [hb, setMoves, state_modify_self _ hi, hempty]
  refine Leads.letters htarget (fun j => by simp [Silent, hstate]) (fun c j => ?_)
  rw [Moves, hstate]
  simp only [ht.canMove_eq_has]
  constructor
  · rintro ⟨hc, hj⟩
    exact ⟨hc, (Option.some_inj.mp hj).symm⟩
  · rintro ⟨hc, rfl⟩
    exact ⟨hc, rfl⟩

/-- One move. -/
lemma Spelled.single {i q : Nat} {t : MoveTable} (hi : i < a.size) (hempty : a.state i = {})
    (hq : q < a.size) (ht : t.InOrder) :
    Spelled a (a.setMoves i t q) i q (Regex.letters fun c => t.has c) :=
  ⟨(Grown.refl a).butMoves hi hq ht,
    fun hb htarget => leads_setMoves hi hempty ht (hb i (Or.inl rfl)) (htarget i (Or.inl rfl))⟩

/-- One move to a new state, and others from there.

**Proof sketch.** A word is read by one move to the new state, and the rest of it from there. -/
lemma Spelled.cons {i q : Nat} {t : MoveTable} (hi : i < a.size) (hempty : a.state i = {})
    (ht : t.InOrder) (h : Spelled ((a.push {}).setMoves i t a.size) a' a.size q L) :
    Spelled a a' i q (Regex.letters (fun c => t.has c) * L) := by
  have hsize : ((a.push {}).setMoves i t a.size).size = a.size + 1 := by simp [setMoves]
  have hle := h.size_le
  rw [hsize] at hle
  have hgrown : GrownBut i a ((a.push {}).setMoves i t a.size) :=
    (Grown.push a).butMoves hi (by simp) ht
  refine ⟨hgrown.trans h.toGrownBut (Or.inr le_rfl), fun {b target} hb htarget => ?_⟩
  have hfirst : b.Leads target i (Regex.letters fun c => t.has c) a.size := by
    refine leads_setMoves (a := a.push {}) (by simp; omega) ?_ ht ?_ (htarget i (Or.inl rfl))
    · rw [state_push_of_lt _ hi, hempty]
    · rw [hb i (Or.inl rfl), h.state (by rw [hsize]; omega) (by omega)]
  refine hfirst.trans (h.leads (fun x hx => ?_) (fun x hx => ?_))
  · rw [hsize] at hx
    exact hb x (by omega)
  · rw [hsize] at hx
    exact htarget x (by omega)

/-- A row of moves inside a new fragment. -/
lemma Spelled.realizes (h : Spelled a.newFragment.2 a' a.size (a.size + 1) L) :
    Realizes a a' ⟨a.size, a.size + 1⟩ L := by
  have hsize := h.size_le
  rw [size_newFragment] at hsize
  refine ⟨(Grown.newFragment a).growBut h.toGrownBut le_rfl, by simp; omega, by simp; omega, ?_, ?_⟩
  · rw [h.state (by simp) (by simp), state_newFragment a (by simp)]
  · intro b target hb htarget
    refine h.leads (fun x hx => ?_) (fun x hx => ?_)
    · rw [size_newFragment] at hx
      exact hb x (by omega) (by omega) (by simp; omega)
    · rw [size_newFragment] at hx
      exact htarget x (by omega) (by omega) (by simp; omega)

end GrammarForge
