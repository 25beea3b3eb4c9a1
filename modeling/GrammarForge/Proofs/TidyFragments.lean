import GrammarForge.Proofs.SharedExpressions
import GrammarForge.Proofs.TidyStates

set_option autoImplicit false

/-!
# Fragments are built of tidy states

A construction adds states without moves, gives them characters, and gives the last state of a token's
fragment its kind. So from the first fragment on all states are tidy: their kinds are those of tokens, and
their move tables are in order.

## Main results

* `keptByBuilding_tidy` — the steps of a construction keep all states tidy.
* `tidy_build` — so does building the fragment of an expression.
* `tidy_addAll` — and building the fragments of several tokens.
-/

namespace GrammarForge

open Build

variable {known : Nat → Prop}

/-! ## Construction -/

/-- **Steps that keep all states tidy** are put together to such steps.

**Proof sketch.** One case per building step. A new state is empty; epsilon moves, links and reports
change neither kinds nor tables beyond adding moves in order; and the items of a character list are
added one by one. -/
lemma keptByBuilding_tidy (known : Nat → Prop) (m : BuildMode) : KeptByBuilding
    (fun _ P x _ => ∀ c : Construction, c.automaton.Tidy known →
      P (x c).1 ∧ (x c).2.automaton.Tidy known) (fun _ => True) (fun _ _ => True) m m where
  pure hP _ hc := ⟨hP, hc⟩
  bind hx hf c hc := by
    obtain ⟨hP, hc₁⟩ := hx c hc
    exact hf _ hP _ hc₁
  newState _ hc := ⟨trivial, hc.push State.Tidy.empty⟩
  newFragment _ hc := ⟨⟨trivial, trivial⟩, hc.newFragment⟩
  epsilon i _ _ _ hc := ⟨trivial, hc.modify_of_eq i (fun _ => rfl) fun _ => rfl⟩
  link i c _ _ _ hc := ⟨trivial, hc.modify fun hi => ⟨hi.kind, hi.moves.charMoves _ c⟩⟩
  report _ _ hc := ⟨trivial, hc⟩
  oneOf := by
    intro l _ _ c hc
    obtain ⟨ds, hds⟩ := oneOf_eq m l c
    refine ⟨⟨trivial, trivial⟩, ?_⟩
    rw [hds]
    refine hc.newFragment.modify fun hi => ⟨?_, ?_⟩
    · unfold oneOfChange
      split_ifs <;> exact hi.kind
    · unfold oneOfChange
      split_ifs
      · exact hi.moves
      · exact List.foldlRecOn l.items addItem hi.moves fun _ ht i _ => ht.addItem i
  single _ := trivial

/-- Building what a reference stands for keeps states tidy, if building the expression in its slot
does.

**Proof sketch.** A reference without a target builds the empty text, one to an empty slot a fault, and
any other one what is in its slot. -/
lemma tidy_buildNamed {m : BuildMode} {inner : Regex → Build Fragment}
    (hinner : ∀ r c, c.automaton.Tidy known → (inner r c).2.automaton.Tidy known) (label : String)
    (target : Option Nat) {c : Construction} (hc : c.automaton.Tidy known) :
    (buildNamed m inner label target c).2.automaton.Tidy known := by
  have hR := keptByBuilding_tidy known m
  cases target with
  | none => exact (hR.emptyText c hc).2
  | some i =>
    cases hi : c.slots.getD i none with
    | none =>
      rw [buildNamed_of_none hi]
      exact (hR.faulty (.circular label) c hc).2
    | some r =>
      rw [buildNamed_of_some hi]
      exact hinner r { c with slots := c.slots.setIfInBounds i none } hc

/-- **Fragments are built of tidy states.**

**Proof sketch.** Induction on the number of references that may be followed; within it the steps of a
fragment keep the states tidy, and a reference is followed with one less. -/
lemma tidy_build (m : BuildMode) : ∀ (depth : Nat) (r : Regex) (c : Construction),
    c.automaton.Tidy known → (build m depth r c).2.automaton.Tidy known := by
  have hR := keptByBuilding_tidy known m
  have hbuild : ∀ {named : String → Option Nat → Build Fragment} (r : Regex) (c : Construction),
      (∀ label target c, c.automaton.Tidy known →
        (named label target c).2.automaton.Tidy known) →
      c.automaton.Tidy known → (buildWith m named r c).2.automaton.Tidy known := by
    intro named r c hnamed hc
    have hsame : r.Alike (fun _ _ => True) r := Regex.Alike.refl (fun _ => trivial) r
    refine (@KeptByBuilding.buildWith _ _ _ _ _ hR named named r r hsame ?_ c hc).2
    exact fun x _ c hc => ⟨⟨trivial, trivial⟩, hnamed x.1 x.2 c hc⟩
  intro depth
  induction depth with
  | zero =>
    intro r c hc
    rw [build]
    refine hbuild _ c (fun label target c hc => ?_) hc
    split_ifs
    · exact (hR.faulty (.circular label) c hc).2
    · exact (hR.emptyText c hc).2
  | succ depth ih =>
    intro r c hc
    rw [build]
    exact hbuild _ c (fun label target c hc => tidy_buildNamed ih label target hc) hc

/-- A token's kind is given to its fragment. -/
lemma tidy_withToken {a : Automaton} (h : a.Tidy known) (f : Fragment) {ordinal : Nat}
    (hordinal : known ordinal) : (Begins.withToken a f ordinal).Tidy known := by
  have hlast : (a.modify f.last fun s =>
      { s.lowerKind (some ordinal) with isFinal := true }).Tidy known := by
    refine h.modify fun hi => ⟨known_leastKind hi.kind ?_, hi.moves⟩
    intro k hk
    obtain rfl := Option.mem_some_iff.mp hk
    exact hordinal
  exact hlast.modify_of_eq 0 (fun _ => rfl) fun _ => rfl

/-- **The fragments of several tokens** are built of tidy states.

**Proof sketch.** Induction on the tokens. Each one builds a fragment, which keeps the states tidy, and
marks its last state with its own kind. -/
lemma tidy_addAll (options : Options) : ∀ (tokens : List (Nat × TokenDef)) {t t' : TokenFragments},
    t.addAll options 0 tokens = .ok t' → (∀ token ∈ tokens, known token.1) →
    t.construction.automaton.Tidy known → t'.construction.automaton.Tidy known
  | [], t, t', h, _, ht => by
    obtain rfl := Except.ok.inj h
    exact ht
  | (ordinal, d) :: tokens, t, t', h, hknown, ht => by
    rw [TokenFragments.addAll] at h
    cases hr : t.construction.slots.getD d.regex none with
    | none =>
      rw [TokenFragments.add_of_none hr] at h
      cases h
    | some r =>
      rw [TokenFragments.add_of_some hr] at h
      have hfragment : (TokenFragments.fragmentStep options d (t.depthFor d)
          t.construction).2.automaton.Tidy known :=
        tidy_buildNamed (tidy_build _ _) "" (some d.regex) ht
      refine tidy_addAll options tokens h (fun x hx => hknown x (List.mem_cons_of_mem _ hx)) ?_
      exact tidy_withToken hfragment _ (hknown _ List.mem_cons_self)

end GrammarForge
