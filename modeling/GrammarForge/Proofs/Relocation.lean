import GrammarForge.Proofs.NamedReferences

set_option autoImplicit false

/-!
# The same fragment in another place

What is built for an expression depends on the automaton it is added to in one respect only: the
new states are counted from where the automaton ends. So when an expression is built once more,
from what the first time has left of it and of the named expressions, the same fragment arises in
another place. In particular a token has the same fragment in all lexical states in which it is
active.

## Main definitions

* `SamePlace` — places at the same distance from two starting points.
* `State.Moved`, `Automaton.Moved` — the same states from two starting points on.
* `Lockstep` — steps that do the same from two starting points on.

## Main results

* `carriedByBuilding_lockstep` — building does the same from any two starting points on.
* `build_elsewhere` — an expression that is built again.
* `construct_again` — the same in terms of fragments, and for the tokens of a scanner.
-/

namespace GrammarForge

open Build

/-! ## Places and states -/

/-- **Places at the same distance** from `b` and from `b'`. -/
def SamePlace (b b' i i' : Nat) : Prop := ∃ k, i = b + k ∧ i' = b' + k

variable {b b' : Nat}

/-- The next places correspond as well. -/
lemma SamePlace.succ {i i' : Nat} (h : SamePlace b b' i i') : SamePlace b b' (i + 1) (i' + 1) := by
  obtain ⟨k, rfl, rfl⟩ := h
  exact ⟨k + 1, by omega, by omega⟩

/-- Corresponding places can be swapped. -/
lemma SamePlace.symm {i i' : Nat} (h : SamePlace b b' i i') : SamePlace b' b i' i := by
  obtain ⟨k, hi, hi'⟩ := h
  exact ⟨k, hi', hi⟩

/-- Places at the same distance are ordered in the same way. -/
lemma SamePlace.compare_eq {i i' j j' : Nat} (hi : SamePlace b b' i i')
    (hj : SamePlace b b' j j') : compare i' j' = compare i j := by
  obtain ⟨k, rfl, rfl⟩ := hi
  obtain ⟨l, rfl, rfl⟩ := hj
  simp [Nat.compare_eq_ite_lt]

/-- Places are inserted at the same position. -/
lemma SamePlace.insertSorted {i i' : Nat} (hi : SamePlace b b' i i') {js js' : List Nat}
    (h : List.Forall₂ (SamePlace b b') js js') :
    List.Forall₂ (SamePlace b b') (insertSorted compare i js) (insertSorted compare i' js') := by
  induction h with
  | nil => exact .cons hi .nil
  | cons hj hjs ih =>
    unfold GrammarForge.insertSorted
    rw [hi.compare_eq hj]
    split
    · exact .cons hi (.cons hj hjs)
    · exact .cons hj hjs
    · exact .cons hj ih

/-- **The same state from two starting points**: it moves on the same characters and accepts the
same, and leads to the same places. -/
structure State.Moved (b b' : Nat) (s s' : State) : Prop where
  moves : s'.moves = s.moves
  isFinal : s'.isFinal = s.isFinal
  kind : s'.kind = s.kind
  next : Option.Rel (SamePlace b b') s.next s'.next
  epsilon : List.Forall₂ (SamePlace b b') s.epsilon s'.epsilon

/-- Empty states correspond. -/
lemma State.Moved.empty : State.Moved b b' {} {} := ⟨rfl, rfl, rfl, .none, .nil⟩

/-- Corresponding states can be swapped. -/
lemma State.Moved.symm {s s' : State} (h : State.Moved b b' s s') : State.Moved b' b s' s where
  moves := h.moves.symm
  isFinal := h.isFinal.symm
  kind := h.kind.symm
  next := by
    have hnext := h.next
    generalize s.next = n, s'.next = n' at hnext
    cases hnext with
    | none => exact .none
    | some hn => exact .some (SamePlace.symm hn)
  epsilon := h.epsilon.flip.imp fun _ _ hj => SamePlace.symm hj

/-- **The same states from two starting points on.** -/
structure Automaton.Moved (b b' : Nat) (a a' : Automaton) : Prop where
  size : SamePlace b b' a.size a'.size
  state : ∀ k, State.Moved b b' (a.state (b + k)) (a'.state (b' + k))

namespace Automaton.Moved

variable {a a' : Automaton}

/-- From where automata end, they are the same. -/
lemma ends (a a' : Automaton) : Moved a.size a'.size a a' where
  size := ⟨0, rfl, rfl⟩
  state k := by
    rw [state_of_size_le (Nat.le_add_right _ k), state_of_size_le (Nat.le_add_right _ k)]
    exact State.Moved.empty

/-- Corresponding automata can be swapped. -/
lemma symm (h : Moved b b' a a') : Moved b' b a' a := ⟨h.size.symm, fun k => (h.state k).symm⟩

/-- An empty state is added to both. -/
lemma push (h : Moved b b' a a') : Moved b b' (a.push {}) (a'.push {}) where
  size := by
    rw [size_push, size_push]
    exact h.size.succ
  state k := by
    rw [state_push_empty, state_push_empty]
    exact h.state k

/-- A state is changed in the same place in the same way.

**Proof sketch.** By whether the place is the changed one, and whether it is a place of both automata;
beyond the end nothing is changed in either of them. -/
lemma modify (h : Moved b b' a a') {i i' : Nat} (hi : SamePlace b b' i i')
    {change change' : State → State}
    (hchange : ∀ {s s'}, State.Moved b b' s s' → State.Moved b b' (change s) (change' s')) :
    Moved b b' (a.modify i change) (a'.modify i' change') where
  size := by
    rw [size_modify, size_modify]
    exact h.size
  state k := by
    obtain ⟨l, rfl, rfl⟩ := hi
    obtain ⟨n, hn, hn'⟩ := h.size
    by_cases hkl : k = l
    · subst hkl
      rcases Nat.lt_or_ge k n with hk | hk
      · rw [state_modify_self _ (by omega), state_modify_self _ (by omega)]
        exact hchange (h.state k)
      · rw [state_of_size_le (by rw [size_modify]; omega),
          state_of_size_le (by rw [size_modify]; omega)]
        exact State.Moved.empty
    · rw [state_modify_of_ne _ (by omega), state_modify_of_ne _ (by omega)]
      exact h.state k

end Automaton.Moved

/-! ## Steps in another place -/

/-- **Steps that do the same from two starting points on**: from constructions with the same slots,
whose automata are the same from there on, results arise that are related by `P`. -/
def Lockstep (b b' : Nat) (α : Type) (P : α → α → Prop) (x y : Build α) : Prop :=
  ∀ c c' : Construction, c'.slots = c.slots → Automaton.Moved b b' c.automaton c'.automaton →
    P (x c).1 (y c').1 ∧ (y c').2.slots = (x c).2.slots ∧
      Automaton.Moved b b' (x c).2.automaton (y c').2.automaton ∧ AddedSame c (x c).2 c' (y c').2

/-- A step that changes the automaton only. -/
lemma Lockstep.grow {α : Type} {P : α → α → Prop} (change change' : Automaton → α × Automaton)
    (h : ∀ {a a'}, Automaton.Moved b b' a a' → P (change a).1 (change' a').1 ∧
      Automaton.Moved b b' (change a).2 (change' a').2) : Lockstep b b' α P
      (fun c => ((change c.automaton).1, { c with automaton := (change c.automaton).2 }))
      (fun c => ((change' c.automaton).1, { c with automaton := (change' c.automaton).2 })) :=
  fun _ _ hslots hmoved => ⟨(h hmoved).1, hslots, (h hmoved).2, AddedSame.of_eq rfl rfl⟩

/-- A state is changed in the same place in the same way. -/
lemma Lockstep.modifyState {i i' : Nat} (hi : SamePlace b b' i i') {change change' : State → State}
    (hchange : ∀ {s s'}, State.Moved b b' s s' → State.Moved b b' (change s) (change' s')) :
    Lockstep b b' Unit (fun _ _ => True) (modifyState i change) (modifyState i' change') :=
  Lockstep.grow (fun a => ((), a.modify i change)) (fun a => ((), a.modify i' change'))
    fun h => ⟨trivial, h.modify hi hchange⟩

/-- Steps that do the same are put one after the other. -/
lemma Lockstep.bind {α β : Type} {P : α → α → Prop} {Q : β → β → Prop} {x y : Build α}
    {f g : α → Build β} (hx : Lockstep b b' α P x y)
    (hf : ∀ a a', P a a' → Lockstep b b' β Q (f a) (g a')) :
    Lockstep b b' β Q (x >>= f) (y >>= g) := by
  intro c c' hslots hmoved
  obtain ⟨hP, hslots₁, hmoved₁, hsame₁⟩ := hx c c' hslots hmoved
  obtain ⟨hQ, hslots₂, hmoved₂, hsame₂⟩ := hf _ _ hP (x c).2 (y c').2 hslots₁ hmoved₁
  exact ⟨hQ, hslots₂, hmoved₂, hsame₁.trans hsame₂⟩

/-- A fragment is added where the automaton ends. -/
lemma Lockstep.newFragment :
    Lockstep b b' Fragment (Fragment.BothEnds (SamePlace b b')) newFragment newFragment :=
  Lockstep.grow Automaton.newFragment Automaton.newFragment fun h =>
    ⟨⟨h.size, h.size.succ⟩, h.push.push⟩

/-- A fragment in the same place. -/
lemma Lockstep.fragment {f f' : Fragment} (h : f.BothEnds (SamePlace b b') f') :
    Lockstep b b' Fragment (Fragment.BothEnds (SamePlace b b')) (pure f) (pure f') :=
  Lockstep.grow (fun a => (f, a)) (fun a => (f', a)) fun hmoved => ⟨h, hmoved⟩

/-- An epsilon move in the same place. -/
lemma Lockstep.epsilon {i i' j j' : Nat} (hi : SamePlace b b' i i') (hj : SamePlace b b' j j') :
    Lockstep b b' Unit (fun _ _ => True) (epsilon i j) (epsilon i' j') :=
  Lockstep.modifyState hi fun h => { h with epsilon := hj.insertSorted h.epsilon }

/-- The same report. -/
lemma Lockstep.report (m : BuildMode) (fault : RegexFault) :
    Lockstep b b' Unit (fun _ _ => True) (report m fault) (report m fault) :=
  fun _ _ hslots hmoved => ⟨trivial, hslots, hmoved,
    #[⟨.semanticError, m.position, fault.message⟩], Array.push_eq_append, Array.push_eq_append⟩

/-- **Steps put together do the same from two starting points on.**

**Proof sketch.** One case per building step: new states are pushed to both automata, moves go to
corresponding places, and reports are the same. -/
lemma carriedByBuilding_lockstep (b b' : Nat) (m : BuildMode) :
    CarriedByBuilding (Lockstep b b') (SamePlace b b') Eq m m where
  done := Lockstep.grow (fun a => ((), a)) (fun a => ((), a)) fun h => ⟨trivial, h⟩
  place := by
    intro i i' hi
    exact Lockstep.grow (fun a => (i, a)) (fun a => (i', a)) fun h => ⟨hi, h⟩
  fragment := Lockstep.fragment
  bind := Lockstep.bind
  newState := Lockstep.grow Automaton.newState Automaton.newState fun h => ⟨h.size, h.push⟩
  newFragment := Lockstep.newFragment
  epsilon := Lockstep.epsilon
  link := by
    intro i i' c j j' hi hj
    refine Lockstep.modifyState hi fun h => { h with moves := ?_, next := .some hj }
    rw [h.moves]
  report := Lockstep.report m
  oneOf := by
    intro l l' hl
    subst hl
    unfold Build.oneOf
    split_ifs
    · exact (Lockstep.report m _).bind fun _ _ _ => Lockstep.newFragment.bind fun _ _ hf =>
        (Lockstep.epsilon hf.1 hf.2).bind fun _ _ _ => Lockstep.fragment hf
    · refine Lockstep.newFragment.bind fun f f' hf => Lockstep.bind
        (Lockstep.modifyState hf.1 fun h => { h with moves := ?_, next := .some hf.2 })
        fun _ _ _ => Lockstep.fragment hf
      rw [h.moves]
  single _ := rfl

/-- **The fragment of a reference is built in the same way** from any two starting points on: the
slots are the same.

**Proof sketch.** The slots are the same in both runs. Either both report a reference to an expression
that is being built, or both take the expression out, build it in the same way and put back the same
normal form. -/
lemma lockstep_buildNamed {m : BuildMode} {inner : Regex → Build Fragment}
    (hinner : ∀ r, Lockstep b b' Fragment (Fragment.BothEnds (SamePlace b b')) (inner r) (inner r))
    (label : String) (target : Option Nat) :
    Lockstep b b' Fragment (Fragment.BothEnds (SamePlace b b')) (buildNamed m inner label target)
      (buildNamed m inner label target) := by
  have hR := carriedByBuilding_lockstep b b' m
  cases target with
  | none => exact hR.emptyText
  | some i =>
    intro c c' hslots hmoved
    cases hi : c.slots.getD i none with
    | none =>
      rw [buildNamed_of_none hi, buildNamed_of_none (by rwa [hslots])]
      exact hR.faulty (.circular label) c c' hslots hmoved
    | some r =>
      rw [buildNamed_of_some hi, buildNamed_of_some (by rwa [hslots])]
      obtain ⟨hends, hslots', hmoved', hsame⟩ := hinner r
        { c with slots := c.slots.setIfInBounds i none }
        { c' with slots := c'.slots.setIfInBounds i none } (by rw [hslots]) hmoved
      refine ⟨hends, ?_, hmoved', hsame⟩
      show (inner r _).2.slots.setIfInBounds i _ = (inner r _).2.slots.setIfInBounds i _
      rw [hslots']

/-- **The fragment of an expression is built in the same way** from any two starting points on.

**Proof sketch.** Induction on the number of references that may be followed, and within it on the
expression. -/
lemma lockstep_build (b b' : Nat) (m : BuildMode) : ∀ (depth : Nat) (r : Regex),
    Lockstep b b' Fragment (Fragment.BothEnds (SamePlace b b')) (build m depth r) (build m depth r)
  | 0, r => by
    have hR := carriedByBuilding_lockstep b b' m
    rw [build]
    refine hR.buildWith (Regex.Alike.refl (fun _ => rfl) _) fun x _ => ?_
    split_ifs
    · exact hR.faulty (.circular x.1)
    · exact hR.emptyText
  | depth + 1, r => by
    have hR := carriedByBuilding_lockstep b b' m
    rw [build]
    exact hR.buildWith (Regex.Alike.refl (fun _ => rfl) _) fun x _ =>
      lockstep_buildNamed (lockstep_build b b' m depth) x.1 x.2

/-! ## Building again elsewhere -/

/-- **The same fragment in two automata**: from `b` and `b'` on, the automata are the same, and the
fragments are in the same place. -/
structure SameFragment (b b' : Nat) (x x' : Automaton × Fragment) : Prop where
  moved : Automaton.Moved b b' x.1 x'.1
  ends : x.2.BothEnds (SamePlace b b') x'.2

/-- Equal fragments can be swapped. -/
lemma SameFragment.symm {x x' : Automaton × Fragment} (h : SameFragment b b' x x') :
    SameFragment b' b x' x :=
  ⟨h.moved.symm, h.ends.1.symm, h.ends.2.symm⟩

/-- **A step that is repeated elsewhere**, on what has become of the slots since, does the same and
leaves the slots alone.

**Proof sketch.** It would do the same on the automaton that it was run on first; and it does the
same on the other automaton, from where that one ends. -/
lemma again_elsewhere {x : Build Fragment} (hx : Replays x)
    (hsame : ∀ b b', Lockstep b b' Fragment (Fragment.BothEnds (SamePlace b b')) x x)
    {c c' : Construction} (hslots : Settles (x c).2.slots c'.slots) :
    SameFragment c.automaton.size c'.automaton.size ((x c).2.automaton, (x c).1)
        ((x c').2.automaton, (x c').1) ∧
      (x c').2.slots = c'.slots ∧ AddedSame c (x c).2 c' (x c').2 := by
  set here : Construction := { c with slots := c'.slots } with hhere
  obtain ⟨hvalue, hauto, hleft, hadded⟩ := hx.again c here rfl hslots
  obtain ⟨hends, hleft', hmoved, hadded'⟩ := hsame c.automaton.size c'.automaton.size here c' rfl
    (Automaton.Moved.ends c.automaton c'.automaton)
  rw [hvalue] at hends
  rw [hauto] at hmoved
  refine ⟨⟨hmoved, hends⟩, hleft'.trans hleft, ?_⟩
  obtain ⟨ds, hds, hhere₁⟩ := hadded
  obtain ⟨es, hhere₂, hes⟩ := hadded'
  obtain rfl := (Array.append_right_inj _).mp (hhere₁.symm.trans hhere₂)
  exact ⟨ds, hds, hes⟩

/-! ## Tokens of several lexical states -/

namespace TokenFragments

variable {options : Options} {k : Nat} {x : Automaton × Fragment}

/-- **Where the fragment of a token comes from**: it is built from the fragments of the tokens before
it, and the slots settle before it and after it.

**Proof sketch.** Induction on the tokens up to the one asked for. Each earlier one settles the slots;
at the token itself the fragment is built, and those behind settle the slots further. -/
lemma fragmentOf?_eq_some : ∀ (tokens : List (Nat × TokenDef)) {t : TokenFragments},
    t.fragmentOf? options k tokens = some x → ∃ (d : TokenDef) (u : TokenFragments),
      (k, d) ∈ tokens ∧
      x = ((fragmentStep options d (u.depthFor d) u.construction).2.automaton,
        (fragmentStep options d (u.depthFor d) u.construction).1) ∧
      Settles t.construction.slots u.construction.slots ∧
      Settles (fragmentStep options d (u.depthFor d) u.construction).2.slots
        (slotsLeft (t.addAll options 0 tokens))
  | (ordinal, d) :: tokens, t, h => by
    have hsettles := settles_fragmentStep options d (t.depthFor d) t.construction
    rw [addAll]
    cases hr : t.construction.slots.getD d.regex none with
    | none =>
      by_cases hk : ordinal = k
      · subst hk
        rw [fragmentOf?_of_none tokens hr] at h
        cases h
      · rw [fragmentOf?, if_neg hk, add_of_none hr] at h
        cases h
    | some r =>
      rw [add_of_some hr]
      by_cases hk : ordinal = k
      · subst hk
        rw [fragmentOf?_of_some tokens hr] at h
        exact ⟨d, t, List.mem_cons_self, (Option.some.inj h).symm, Settles.refl _,
          settles_addAll options tokens (t.attach ordinal d _)⟩
      · rw [fragmentOf?, if_neg hk, add_of_some hr] at h
        obtain ⟨e, u, he, hx, hbefore, hafter⟩ := fragmentOf?_eq_some tokens h
        exact ⟨e, u, List.mem_cons_of_mem _ he, hx, hsettles.trans hbefore, hafter⟩

end TokenFragments

namespace Lexer

/-- The slots before a lexical state is built, after those before it. -/
def slotsBefore (g : Grammar) (ctx : Context) (mode : Nat) : Array (Option Regex) :=
  ((List.range mode).foldl (fun s i => (buildState s.1 s.2 i).2) (g, ctx)).1.regexes

/-- The slots settle from one lexical state to the next. -/
lemma settles_slotsBefore (g : Grammar) (ctx : Context) {i j : Nat} (h : i ≤ j) :
    Settles (slotsBefore g ctx i) (slotsBefore g ctx j) := by
  induction h with
  | refl => exact Settles.refl _
  | @step j _ ih =>
    refine ih.trans ?_
    unfold slotsBefore
    rw [List.range_succ, List.foldl_append]
    exact settles_buildState _ _ j

/-- **Where the fragment of a token in a lexical state comes from.**

**Proof sketch.** The lexical states before leave their slots, from which the fragments of the active
tokens are built. -/
lemma fragment?_eq_some {g : Grammar} {ctx : Context} {mode k : Nat} {x : Automaton × Fragment}
    (h : fragment? g ctx mode k = some x) : ∃ (d : TokenDef) (u : TokenFragments),
      g.tokens[k]? = some d ∧
      x = ((TokenFragments.fragmentStep ctx.options d (u.depthFor d) u.construction).2.automaton,
        (TokenFragments.fragmentStep ctx.options d (u.depthFor d) u.construction).1) ∧
      Settles (slotsBefore g ctx mode) u.construction.slots ∧
      Settles (TokenFragments.fragmentStep ctx.options d (u.depthFor d) u.construction).2.slots
        (slotsBefore g ctx (mode + 1)) := by
  obtain ⟨left, ds, hfold⟩ := foldl_buildState (List.range mode) g ctx
  have hbefore : slotsBefore g ctx mode = left := by
    rw [slotsBefore, hfold]
  have hafter : slotsBefore g ctx (mode + 1) = TokenFragments.slotsLeft ((TokenFragments.start left
      ds).addAll ctx.options 0 (activeTokens g mode)) := by
    obtain ⟨es, hes⟩ := buildState_snd { g with regexes := left } { ctx with diagnostics := ds } mode
    rw [slotsBefore, List.range_succ, List.foldl_append, hfold, List.foldl_cons, List.foldl_nil, hes]
    rfl
  rw [fragment?, hfold] at h
  obtain ⟨d, u, hd, hx, hu, hu'⟩ := TokenFragments.fragmentOf?_eq_some _ h
  rw [hbefore, hafter]
  exact ⟨d, u, (mem_activeTokens.mp hd).2.1, hx, hu, hu'⟩

/-- **A token has the same fragment in all lexical states** in which it is active.

**Proof sketch.** After its fragment has been built in the first of two lexical states, the slots
settle until it is built in the second one. -/
lemma sameFragment_of_le {g : Grammar} {ctx : Context} {i j k : Nat} {x x' : Automaton × Fragment}
    (hij : i ≤ j) (h : fragment? g ctx i k = some x) (h' : fragment? g ctx j k = some x') :
    ∃ b b', SameFragment b b' x x' := by
  obtain ⟨d, u, hd, hx, -, hafter⟩ := fragment?_eq_some h
  obtain ⟨d', u', hd', hx', hbefore, -⟩ := fragment?_eq_some h'
  obtain rfl := Option.some.inj (hd.symm.trans hd')
  have hreplays : Replays (TokenFragments.fragmentStep ctx.options d (u.depthFor d)) :=
    replays_buildNamed (replays_build _ _) (build_normalize _ _) _ _
  have hlockstep : ∀ b b', Lockstep b b' Fragment (Fragment.BothEnds (SamePlace b b'))
      (TokenFragments.fragmentStep ctx.options d (u.depthFor d))
      (TokenFragments.fragmentStep ctx.options d (u.depthFor d)) :=
    fun b b' => lockstep_buildNamed (lockstep_build b b' _ _) _ _
  rcases Nat.eq_or_lt_of_le hij with rfl | hlt
  · obtain rfl := Option.some.inj (h.symm.trans h')
    obtain ⟨hends, -, hmoved, -⟩ := hlockstep _ _ u.construction u.construction rfl
      (Automaton.Moved.ends u.construction.automaton u.construction.automaton)
    rw [hx]
    exact ⟨_, _, hmoved, hends⟩
  · have hslots : Settles (TokenFragments.fragmentStep ctx.options d (u.depthFor d)
        u.construction).2.slots u'.construction.slots :=
      (hafter.trans (settles_slotsBefore g ctx hlt)).trans hbefore
    have hdepth : u'.depthFor d = u.depthFor d := by
      have hall := ((hreplays.settles u.construction).trans hslots).take d.regex
      exact Construction.fullSlots_congr hall.size hall.isSome_eq
    rw [hx, hx', hdepth]
    exact ⟨_, _, (again_elsewhere hreplays hlockstep hslots).1⟩

end Lexer

/-- **An expression that is built again gives the same fragment.** Let the fragment of an expression
be built. From what is left of the expression, on any automaton and with the slots as they were left,
the same fragment is built in another place; the same diagnostics are added, and the expression and
the slots are left alone. So a token has the same fragment in all lexical states in which it is
active; and if the scanner is built, it has one in each of them.

**Proof sketch.** What is left is in normal form, and building it is building the expression itself,
which can be repeated with the slots as they were left. On another automaton the same steps put the
fragment in another place. For two lexical states the fragment is built twice, with slots that have
settled in between. -/
theorem construct_again {m : BuildMode} {r left : Regex} {c c' now : Construction} {f : Fragment}
    (h : construct m r c = ((f, left), c')) (hslots : now.slots = c'.slots) :
    (∃ f' now', construct m left now = ((f', left), now') ∧
      SameFragment c.automaton.size now.automaton.size (c'.automaton, f) (now'.automaton, f') ∧
      now'.slots = now.slots ∧ AddedSame c c' now now') ∧
    ∀ (g : Grammar) (ctx : Context) (k : Nat),
      (∀ {i j x x'}, Lexer.fragment? g ctx i k = some x → Lexer.fragment? g ctx j k = some x' →
        ∃ b b', SameFragment b b' x x') ∧
      ∀ {lexer g' ctx' mode d}, Lexer.build g ctx = (.ok lexer, g', ctx') →
        mode < g.lexicalStates.size → (k, d) ∈ Lexer.activeTokens g mode →
        (Lexer.fragment? g ctx mode k).isSome := by
  refine ⟨?_, fun g ctx k => ⟨fun {i j x x'} hx hx' => ?_, Lexer.isSome_fragment?⟩⟩
  · cases h
    have hreplays := replays_build m c.fullSlots r
    have hsettles := hreplays.settles c
    have hfull : now.fullSlots = c.fullSlots := by
      refine Settles.fullSlots_eq ?_
      rw [hslots]
      exact hsettles
    have hbuild : build m now.fullSlots (r.normalize m.ignoreCase false) = build m c.fullSlots r := by
      rw [hfull, build_normalize]
    have hnormal : (r.normalize m.ignoreCase false).normalize m.ignoreCase false =
        r.normalize m.ignoreCase false := (Regex.normal_normalize _ r).normalize_eq _
    have hnow : Settles (build m c.fullSlots r c).2.slots now.slots := by
      rw [hslots]
      exact Settles.refl _
    obtain ⟨hsame, hleft, hadded⟩ := again_elsewhere hreplays
      (fun b b' => lockstep_build b b' m c.fullSlots r) hnow
    refine ⟨_, _, ?_, hsame, hleft, hadded⟩
    rw [construct, hbuild, hnormal]
    rfl
  · rcases Nat.le_total i j with hij | hij
    · exact Lexer.sameFragment_of_le hij hx hx'
    · obtain ⟨b, b', hsame⟩ := Lexer.sameFragment_of_le hij hx' hx
      exact ⟨b', b, hsame.symm⟩

/-- One state, and a slot whose expression refers to itself. -/
def selfSlot : Construction where
  automaton := ({} : Automaton).newState.2
  slots := #[some (.choice [.literal "x", .literal "y", .reference "SELF" (some 0)])]

/-- A letter and what is in the slot. -/
def letterAndSelf : Regex :=
  .sequence [.chars { items := [.range 'a' 'b'] }, .reference "SELF" (some 0)]

/-- A token that is active in two lexical states. -/
def wordInTwoStates : Grammar :=
  let (_, g) := Grammar.empty.privateRegex "LETTER" (.chars { items := [.range 'a' 'z'] })
  let (_, g) := g.addToken { regex := .literal "if", ignoreCase := true }
  let (_, g) := g.addToken
    { regex := .oneOrMore (.reference "LETTER" none), states := ["DEFAULT", "INSIDE"] }
  (g.link {}).1

/-- A fragment is built again from what is left of an expression, and a token that is active in two
lexical states has the same fragment in both. -/
theorem construct_again_letterAndSelf :
    (∃ f left c', construct ⟨true, ⟨1, 1⟩⟩ letterAndSelf selfSlot = ((f, left), c') ∧
      ∃ f' now', construct ⟨true, ⟨1, 1⟩⟩ left { slots := c'.slots } = ((f', left), now') ∧
        SameFragment 1 0 (c'.automaton, f) (now'.automaton, f') ∧ now'.slots = c'.slots ∧
        AddedSame selfSlot c' { slots := c'.slots } now') ∧
    ∃ x x', Lexer.fragment? wordInTwoStates {} 0 2 = some x ∧
      Lexer.fragment? wordInTwoStates {} 1 2 = some x' ∧ ∃ b b', SameFragment b b' x x' := by
  rcases h : construct ⟨true, ⟨1, 1⟩⟩ letterAndSelf selfSlot with ⟨⟨f, left⟩, c'⟩
  have hslots : ({ slots := c'.slots } : Construction).slots = c'.slots := rfl
  obtain ⟨⟨f', now', hnow', hsame⟩, hlexer⟩ := construct_again h hslots
  have hfirst : (Lexer.fragment? wordInTwoStates {} 0 2).isSome := by decide +kernel
  have hsecond : (Lexer.fragment? wordInTwoStates {} 1 2).isSome := by decide +kernel
  obtain ⟨x, hx⟩ := Option.isSome_iff_exists.mp hfirst
  obtain ⟨x', hx'⟩ := Option.isSome_iff_exists.mp hsecond
  exact ⟨⟨f, left, c', rfl, f', now', hnow', hsame⟩, x, x', hx, hx',
    (hlexer wordInTwoStates {} 2).1 hx hx'⟩

end GrammarForge
