import GrammarForge.Proofs.BuildSteps

set_option autoImplicit false

/-!
# Sharp states

In an automaton built from regular expressions, a state that moves on characters, or that accepts a
token, has no epsilon moves. Every step of a construction keeps this: epsilon moves are added to the
first state of a new fragment and to the last states of inner ones only, and these are still empty.
It does not matter whether errors are reported on the way, since a faulty expression becomes a fragment
for the empty text.

## Main definitions

* `State.Sharp`, `Automaton.Sharp` — no epsilon moves where there are moves, or where a token ends.
* `Raises` — steps that add a fragment of sharp states, for some language.
* `SharpStart` — automata of sharp states that begin with tokens.

## Main results

* `raises_build` — the fragment of any expression.
* `sharpStart_addAll` — the automaton of several tokens.
-/

namespace GrammarForge

open Automaton Build Computability

/-- **A sharp state** has no epsilon moves if it moves or accepts. -/
def State.Sharp (s : State) : Prop := s.isUseful → s.epsilon = []

/-- All states of an automaton are sharp. -/
def Automaton.Sharp (a : Automaton) : Prop := ∀ i, (a.state i).Sharp

/-- An empty state neither moves nor accepts. -/
lemma isUseful_of_empty {a : Automaton} {i : Nat} (h : a.state i = {}) :
    (a.state i).isUseful = false := by
  rw [h]
  decide

/-- Epsilon moves do not make a state useful. -/
lemma isUseful_addEdges (a : Automaton) (es : List (Nat × Nat)) (i : Nat) :
    ((a.addEdges es).state i).isUseful = (a.state i).isUseful := by
  obtain ⟨ns, hns⟩ := state_addEdges es a i
  rw [hns]
  rfl

namespace Automaton.Sharp

variable {a : Automaton}

/-- A state is added that neither moves nor accepts. -/
lemma push (h : a.Sharp) : (a.push {}).Sharp := fun i => by
  rw [state_push_empty]
  exact h i

/-- The two states of a new fragment are sharp. -/
lemma newFragment (h : a.Sharp) : a.newFragment.2.Sharp := h.push.push

/-- A state is changed that has no epsilon moves. -/
lemma modify (h : a.Sharp) {i : Nat} {f : State → State} (hf : (f (a.state i)).epsilon = []) :
    (a.modify i f).Sharp := by
  intro j
  by_cases hij : i = j
  · subst hij
    rcases Nat.lt_or_ge i a.size with hi | hi
    · rw [state_modify_self f hi]
      exact fun _ => hf
    · rw [state_of_size_le (by simpa using hi)]
      exact fun _ => rfl
  · rw [state_modify_of_ne f hij]
    exact h j

/-- Epsilon moves are added to states that neither move nor accept. -/
lemma addEdges (h : a.Sharp) {es : List (Nat × Nat)}
    (hes : ∀ e ∈ es, (a.state e.1).isUseful = false) : (a.addEdges es).Sharp := by
  intro x
  by_cases hx : x ∈ es.map Prod.fst
  · obtain ⟨e, he, rfl⟩ := List.mem_map.mp hx
    intro huseful
    rw [isUseful_addEdges, hes e he] at huseful
    cases huseful
  · rw [state_addEdges_of_notMem es hx]
    exact h x

end Automaton.Sharp

/-! ## Fragments of sharp states -/

/-- **A step that adds a fragment of sharp states**, for some language, whether it reports errors or
not. -/
def Raises (x : Build Fragment) : Prop := ∀ c : Construction, ∃ L,
  Realizes c.automaton (x c).2.automaton (x c).1 L ∧
    (c.automaton.Sharp → (x c).2.automaton.Sharp)

namespace Raises

variable {x : Build Fragment} {xs : List (Build Fragment)}

/-- The fragment of the empty text. -/
lemma emptyText : Raises emptyText := by
  refine fun c => ⟨1, realizes_emptyText c.automaton, fun hc => ?_⟩
  show (c.automaton.newFragment.2.addEdges [(c.automaton.size, c.automaton.size + 1)]).Sharp
  refine hc.newFragment.addEdges ?_
  simpa using isUseful_of_empty (state_newFragment c.automaton le_rfl)

/-- The fragment of something faulty. -/
lemma faulty (m : BuildMode) (fault : RegexFault) : Raises (faulty m fault) :=
  fun c => emptyText (report m fault c).2

/-- One character of a list. -/
lemma oneOf (m : BuildMode) (l : CharList) : Raises (oneOf m l) := by
  by_cases hl : l.isEmpty
  · rw [Build.oneOf, if_pos hl]
    exact faulty m .emptyCharList
  · intro c
    have hbuilds : Builds (fun _ => True) (Build.oneOf m l) _ := Builds.oneOf m l
    have hreal := hbuilds.realizes c trivial
    rw [Build.oneOf, if_neg hl] at hreal ⊢
    refine ⟨_, hreal rfl, fun hc => ?_⟩
    refine Sharp.modify (i := c.automaton.size) hc.newFragment ?_
    rw [state_newFragment c.automaton le_rfl]

/-- **Spelling a text** gives moves to states without epsilon moves.

**Proof sketch.** Induction on the characters. The state with the move has no epsilon moves, and the
next one is new. -/
lemma sharp_spell (ignoreCase : Bool) {q : Nat} : ∀ (cs : List Char) {i : Nat} {c : Construction},
    i < c.automaton.size → (c.automaton.state i).epsilon = [] → c.automaton.Sharp →
    (spell ignoreCase q i cs c).2.automaton.Sharp
  | [], _, _, _, _, hc => hc
  | [_], _, _, _, hi, hc => hc.modify hi
  | x :: y :: cs, i, c, hlt, hi, hc => by
    set a₁ := (c.automaton.push {}).modify i fun s =>
      { s with moves := charMoves ignoreCase s.moves x, next := some c.automaton.size } with ha₁
    have hstep : spell ignoreCase q i (x :: y :: cs) c =
        spell ignoreCase q c.automaton.size (y :: cs) { c with automaton := a₁ } := rfl
    rw [hstep]
    refine sharp_spell ignoreCase (y :: cs) (c := { c with automaton := a₁ }) ?_ ?_ ?_
    · show c.automaton.size < a₁.size
      rw [ha₁, size_modify, size_push]
      exact Nat.lt_succ_self _
    · show (a₁.state c.automaton.size).epsilon = []
      rw [ha₁, state_modify_of_ne _ (Nat.ne_of_lt hlt), state_push_size]
    · refine hc.push.modify ?_
      rw [state_push_empty]
      exact hi

/-- A literal text. -/
lemma text (m : BuildMode) (cs : List Char) : Raises (text m cs) := by
  match cs with
  | [] => exact emptyText
  | [x] => exact oneOf m _
  | x :: y :: cs =>
    intro c
    have hempty := state_newFragment c.automaton le_rfl
    have hlt : c.automaton.size < c.automaton.newFragment.2.size := by simp
    obtain ⟨-, -, hspelled⟩ := Builds.spell_spec m.ignoreCase (x :: y :: cs)
      (q := c.automaton.size + 1) (i := c.automaton.size) (c := (newFragment c).2) (by simp) hlt
      hempty (by simp [Build.newFragment])
    refine ⟨_, hspelled.realizes, fun hc => ?_⟩
    refine sharp_spell m.ignoreCase (x :: y :: cs) (c := (newFragment c).2) hlt ?_ hc.newFragment
    exact congrArg State.epsilon hempty

/-- **A fragment around another one.** Epsilon moves are added to its first state and to the last one
of the inner fragment, which are both empty.

**Proof sketch.** The first state of the new fragment and the last one of the inner fragment are empty,
so that they neither move nor accept and may have epsilon moves. -/
lemma wrap (skip again : Prop) [Decidable skip] [Decidable again]
    (edges : Fragment → Fragment → List (Nat × Nat)) (h : Raises x)
    (hmem : ∀ f g a b, (a, b) ∈ edges f g ↔
      (a = f.first ∧ (b = g.first ∨ (skip ∧ b = f.last))) ∨
        (a = g.last ∧ (b = f.last ∨ (again ∧ b = g.first))))
    {y : Build Fragment} (hy : ∀ c, y c =
      let (f, c₁) := newFragment c
      let (g, c₂) := x c₁
      (f, { c₂ with automaton := c₂.automaton.addEdges (edges f g) })) : Raises y := by
  intro c
  obtain ⟨L, hreal, hsharp⟩ := h (newFragment c).2
  rw [hy]
  refine ⟨_, hreal.wrap fun a b => hmem _ _ a b, fun hc => (hsharp hc.newFragment).addEdges ?_⟩
  rintro ⟨a, b⟩ he
  rcases (hmem _ _ a b).mp he with ⟨rfl, -⟩ | ⟨rfl, -⟩
  · refine isUseful_of_empty ?_
    rw [hreal.state (by simp [Build.newFragment, fst_newFragment])]
    exact state_newFragment c.automaton le_rfl
  · exact isUseful_of_empty hreal.last_state

/-- One or more times. -/
lemma plus (h : Raises x) : Raises (plus x) :=
  wrap False True (fun f g => [(f.first, g.first), (g.last, g.first), (g.last, f.last)]) h
    (by intro f g a b; simp; tauto) fun _ => rfl

/-- Any number of times. -/
lemma star (h : Raises x) : Raises (star x) :=
  wrap True True
    (fun f g => [(f.first, g.first), (f.first, f.last), (g.last, f.last), (g.last, g.first)]) h
    (by intro f g a b; simp; tauto) fun _ => rfl

/-- At most once. -/
lemma optional (h : Raises x) : Raises (optional x) :=
  wrap True False (fun f g => [(f.first, g.first), (f.first, f.last), (g.last, f.last)]) h
    (by intro f g a b; simp; tauto) fun _ => rfl

/-- **Building alternatives** side by side, from a state that neither moves nor accepts.

**Proof sketch.** Induction on the alternatives. The state in front neither moves nor accepts, so that
it may have epsilon moves; each alternative ends in a state without moves, which is not marked yet. -/
lemma branches_spec (f : Fragment) : ∀ (xs : List (Build Fragment)) (c : Construction),
    (∀ x ∈ xs, Raises x) → f.first < c.automaton.size → f.last < c.automaton.size →
    ∃ es, Fanned c.automaton (branches f xs c).2.automaton f.first f.last es ∧
      ((c.automaton.state f.first).isUseful = false → c.automaton.Sharp →
        (branches f xs c).2.automaton.Sharp)
  | [], c, _, _, _ => ⟨[], Fanned.nil _ _ _, fun _ hc => hc⟩
  | x :: xs, c, hxs, hfirst, hlast => by
    obtain ⟨L, hreal, hsharp⟩ := hxs x List.mem_cons_self c
    set es := [(f.first, (x c).1.first), ((x c).1.last, f.last)] with hes
    set c₂ : Construction := { (x c).2 with automaton := (x c).2.automaton.addEdges es } with hc₂
    have hstep : branches f (x :: xs) c = branches f xs c₂ := rfl
    have hsize : c₂.automaton.size = (x c).2.automaton.size := size_addEdges _ _
    obtain ⟨es', hfan, hsharp'⟩ := branches_spec f xs c₂ (fun y hy => hxs y (List.mem_cons_of_mem x hy))
      (by rw [hsize]; exact hfirst.trans_le hreal.size_le)
      (by rw [hsize]; exact hlast.trans_le hreal.size_le)
    rw [hstep]
    refine ⟨_, Fanned.cons hfirst hlast hreal hfan, fun hidle hc => hsharp' ?_ ?_⟩
    · rw [hc₂, isUseful_addEdges, hreal.state hfirst]
      exact hidle
    · refine (hsharp hc).addEdges ?_
      rw [hes, List.forall_mem_cons, List.forall_mem_singleton]
      refine ⟨?_, isUseful_of_empty hreal.last_state⟩
      rw [hreal.state hfirst]
      exact hidle

/-- Any one of several fragments. -/
lemma anyOf (m : BuildMode) (h : ∀ x ∈ xs, Raises x) : Raises (anyOf m xs) := by
  match xs, h with
  | [], _ => exact faulty m .emptyChoice
  | [x], h => exact h x (List.mem_singleton_self x)
  | x :: y :: xs, h =>
    intro c
    obtain ⟨es, hfan, hsharp⟩ := branches_spec (newFragment c).1 (x :: y :: xs) (newFragment c).2 h
      (by simp [Build.newFragment, fst_newFragment]) (by simp [Build.newFragment, fst_newFragment])
    refine ⟨_, hfan.realizes, fun hc => hsharp ?_ hc.newFragment⟩
    exact isUseful_of_empty (state_newFragment c.automaton le_rfl)

/-- **Building a row** of fragments from an empty state.

**Proof sketch.** Induction on the row. The last state of each fragment is empty, and the epsilon move
to the next one is its only move. -/
lemma chain_spec : ∀ (xs : List (Build Fragment)) (i : Nat) (c : Construction),
    (∀ x ∈ xs, Raises x) → i < c.automaton.size → c.automaton.state i = {} →
    ∃ L, Chained c.automaton (chain i xs c).2.automaton i (chain i xs c).1 L ∧
      (c.automaton.Sharp → (chain i xs c).2.automaton.Sharp)
  | [], i, c, _, hi, hempty => ⟨1, Chained.nil hi hempty, id⟩
  | x :: xs, i, c, hxs, hi, hempty => by
    obtain ⟨L, hreal, hsharp⟩ := hxs x List.mem_cons_self c
    set c₂ : Construction := { (x c).2 with
      automaton := (x c).2.automaton.addEdges [(i, (x c).1.first)] } with hc₂
    have hstep : chain i (x :: xs) c = chain (x c).1.last xs c₂ := rfl
    have hsize : c₂.automaton.size = (x c).2.automaton.size := size_addEdges _ _
    have hlast : c₂.automaton.state (x c).1.last = {} := by
      have hne : (x c).1.last ≠ i := (Nat.ne_of_lt (hi.trans_le hreal.last_mem.1)).symm
      rw [hc₂, state_addEdges_of_notMem _ (by simpa using hne), hreal.last_state]
    obtain ⟨M, hchain, hsharp'⟩ := chain_spec xs (x c).1.last c₂
      (fun y hy => hxs y (List.mem_cons_of_mem x hy)) (by rw [hsize]; exact hreal.last_mem.2) hlast
    rw [hstep]
    refine ⟨_, Chained.cons hi hempty hreal hchain, fun hc => hsharp' ((hsharp hc).addEdges ?_)⟩
    rw [List.forall_mem_singleton]
    refine isUseful_of_empty ?_
    rw [hreal.state hi, hempty]

/-- Several fragments one after the other. -/
lemma allOf (h : ∀ x ∈ xs, Raises x) : Raises (allOf xs) := by
  match xs, h with
  | [], _ => exact emptyText
  | [x], h => exact h x (List.mem_singleton_self x)
  | x :: y :: xs, h =>
    intro c
    obtain ⟨L, hchain, hsharp⟩ := chain_spec (x :: y :: xs) c.automaton.size (newFragment c).2 h
      (by simp [Build.newFragment]) (state_newFragment c.automaton le_rfl)
    refine ⟨_, hchain.realizes, fun hc => ?_⟩
    show (addEdges _ [((chain c.automaton.size (x :: y :: xs) (newFragment c).2).1,
      c.automaton.size + 1)]).Sharp
    refine (hsharp hc.newFragment).addEdges ?_
    rw [List.forall_mem_singleton]
    exact isUseful_of_empty hchain.last_state

/-- The copies of a counted repetition. -/
lemma copies (h : Raises x) (min : Nat) (max : Option Nat) : ∀ y ∈ copies x min max, Raises y := by
  intro y hy
  cases max with
  | none =>
    rcases List.mem_append.mp hy with hy | hy
    · exact List.eq_of_mem_replicate hy ▸ h
    · exact List.mem_singleton.mp hy ▸ h.star
  | some max =>
    rcases List.mem_append.mp hy with hy | hy
    · exact List.eq_of_mem_replicate hy ▸ h
    · exact List.eq_of_mem_replicate hy ▸ h.optional

section

variable {m : BuildMode} {named : String → Option Nat → Build Fragment}

mutual

/-- **The fragment of an expression** is one of sharp states, if those of its references are.

**Proof sketch.** Induction on the expression, with one case for each way of building. -/
lemma buildWith (hnamed : ∀ label target, Raises (named label target)) :
    ∀ r : Regex, Raises (buildWith m named r)
  | .chars l => by
    rw [GrammarForge.buildWith]
    exact oneOf m l
  | .choice rs => by
    rw [GrammarForge.buildWith]
    exact anyOf m (buildAllWith hnamed rs)
  | .sequence rs => by
    rw [GrammarForge.buildWith]
    exact allOf (buildAllWith hnamed rs)
  | .oneOrMore r => by
    rw [GrammarForge.buildWith]
    exact (buildWith hnamed r).plus
  | .zeroOrMore r => by
    rw [GrammarForge.buildWith]
    exact (buildWith hnamed r).star
  | .zeroOrOne r => by
    rw [GrammarForge.buildWith]
    exact (buildWith hnamed r).optional
  | .literal s => by
    rw [GrammarForge.buildWith]
    exact text m s.toList
  | .repetition r min max => by
    rw [GrammarForge.buildWith]
    exact allOf ((buildWith hnamed r).copies min max)
  | .reference label target => by
    rw [GrammarForge.buildWith]
    exact hnamed label target
  | .endOfInput => by
    rw [GrammarForge.buildWith]
    exact faulty m .innerEndOfInput

/-- The same for a list of expressions. -/
lemma buildAllWith (hnamed : ∀ label target, Raises (named label target)) :
    ∀ rs : List Regex, ∀ x ∈ buildAllWith m named rs, Raises x
  | [] => by simp [GrammarForge.buildAllWith]
  | r :: rs => by
    rw [GrammarForge.buildAllWith, List.forall_mem_cons]
    exact ⟨buildWith hnamed r, buildAllWith hnamed rs⟩

end

/-- The fragment of a reference, whatever is in its slot.

**Proof sketch.** What is in the slot is built; if it is empty, the fault has a fragment of its own. -/
lemma buildNamed {inner : Regex → Build Fragment} (hinner : ∀ r, Raises (inner r)) (label : String)
    (target : Option Nat) : Raises (buildNamed m inner label target) := by
  cases target with
  | none => exact emptyText
  | some i =>
    intro c
    cases hi : c.slots.getD i none with
    | none =>
      rw [buildNamed_of_none hi]
      exact faulty m (.circular label) c
    | some r =>
      rw [buildNamed_of_some hi]
      exact hinner r { c with slots := c.slots.setIfInBounds i none }

end

end Raises

/-- **The fragment of any expression** is one of sharp states, to whatever depth references are
followed. -/
lemma raises_build (m : BuildMode) : ∀ (depth : Nat) (r : Regex), Raises (build m depth r)
  | 0, r => by
    rw [build]
    refine Raises.buildWith (fun label target => ?_) _
    split_ifs
    · exact Raises.faulty m (.circular label)
    · exact Raises.emptyText
  | depth + 1, r => by
    rw [build]
    exact Raises.buildWith (Raises.buildNamed (raises_build m depth)) _

/-! ## The automaton of several tokens -/

/-- **An automaton of sharp states that begins with tokens**; its initial state neither moves nor
accepts. -/
structure SharpStart (a : Automaton) : Prop where
  begins : ∃ ps, Begins a ps
  sharp : a.Sharp
  idle : (a.state 0).isUseful = false

namespace SharpStart

variable {a a₁ : Automaton} {f : Fragment} {L : Language Char}

/-- Before any token there is one empty state. -/
lemma empty : SharpStart ({} : Automaton).newState.2 where
  begins := ⟨[], begins_empty⟩
  sharp := Sharp.push fun _ _ => rfl
  idle := by decide

/-- One more token.

**Proof sketch.** The initial state stays one that neither moves nor accepts. The last state of the
fragment accepts the token, but has no epsilon moves; and all other states are as they were. -/
lemma add (h : SharpStart a) (hreal : Realizes a a₁ f L) (hsharp : a₁.Sharp) (ordinal : Nat) :
    SharpStart (Begins.withToken a₁ f ordinal) := by
  obtain ⟨ps, hps⟩ := h.begins
  obtain ⟨⟨es, hzero⟩, -⟩ := Begins.state_withToken_zero hps.size_pos hreal ordinal
  have hidle : ((Begins.withToken a₁ f ordinal).state 0).isUseful = false := by
    rw [hzero]
    exact h.idle
  refine ⟨⟨_, hps.add hreal ordinal⟩, fun x => ?_, hidle⟩
  by_cases h0 : x = 0
  · subst h0
    exact fun huseful => absurd huseful (by simp [hidle])
  · by_cases hlast : x = f.last
    · rw [hlast, Begins.state_withToken_last hps.size_pos hreal]
      exact fun _ => rfl
    · rw [Begins.state_withToken_of_ne h0 hlast]
      exact hsharp x

end SharpStart

/-- **The fragments of several tokens** make an automaton of sharp states.

**Proof sketch.** Induction on the tokens, each of which adds the fragment of its expression. -/
lemma sharpStart_addAll (options : Options) : ∀ (tokens : List (Nat × TokenDef))
    {t t' : TokenFragments}, t.addAll options 0 tokens = .ok t' →
    SharpStart t.construction.automaton → SharpStart t'.construction.automaton
  | [], t, t', h, ht => by
    obtain rfl := Except.ok.inj h
    exact ht
  | (ordinal, d) :: tokens, t, t', h, ht => by
    rw [TokenFragments.addAll] at h
    cases hr : t.construction.slots.getD d.regex none with
    | none =>
      rw [TokenFragments.add_of_none hr] at h
      cases h
    | some r =>
      rw [TokenFragments.add_of_some hr] at h
      obtain ⟨L, hreal, hsharp⟩ :=
        Raises.buildNamed (raises_build (TokenFragments.modeFor options d) (t.depthFor d)) ""
          (some d.regex) t.construction
      exact sharpStart_addAll options tokens h (ht.add hreal (hsharp ht.sharp) ordinal)

end GrammarForge
