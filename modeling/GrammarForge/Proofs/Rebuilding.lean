import GrammarForge.Proofs.BuildSteps
import GrammarForge.Proofs.Scanning

set_option autoImplicit false

/-!
# Building a scanner again

Building a scanner leaves normal forms in the slots of the grammar. When the scanner is built once
more from what was left, every step finds what it left itself or what a later step made of that; so
it does the same, reports the same errors, and leaves the slots alone.

## Main definitions

* `Settles` — what building makes of the slots.
* `AddedSame` — the same diagnostics have been added twice.
* `Replays` — a step does the same when it is repeated on what has become of the slots.

## Main results

* `Replays.bind`, `Replays.grow` and the like — steps put together.
* `replays_build` — building the fragment of an expression.
* `Lexer.build_again` — building the scanner of a grammar again.
-/

namespace GrammarForge

open Build

/-! ## What becomes of the slots -/

/-- What was in a slot is put back. -/
lemma setIfInBounds_restore {s : Array (Option Regex)} {i : Nat} {x : Option Regex}
    (h : s.getD i none = x) (y : Option Regex) :
    (s.setIfInBounds i y).setIfInBounds i x = s := by
  refine Array.ext (by simp) fun j hj hj' => ?_
  rw [Array.getElem_setIfInBounds (by simpa using hj'), Array.getElem_setIfInBounds hj']
  split_ifs with hij
  · subst hij
    rw [← h, Array.getD_eq_getD_getElem?, Array.getElem?_eq_getElem hj', Option.getD_some]
  · rfl

/-- **What building makes of the slots**: each one holds what it held, or the normal form of
that. -/
structure Settles (s s' : Array (Option Regex)) : Prop where
  size : s'.size = s.size
  slot : ∀ i, s'.getD i none = s.getD i none ∨
    ∃ ignoreCase, s'.getD i none = (s.getD i none).map (Regex.normalize ignoreCase false)

namespace Settles

variable {s s' s'' : Array (Option Regex)} {i : Nat}

/-- Nothing has been built. -/
lemma refl (s : Array (Option Regex)) : Settles s s := ⟨rfl, fun _ => Or.inl rfl⟩

/-- A normal form stays as it is, so two changes are no more than the first one.

**Proof sketch.** By what has become of the slot: it was left alone by one of both, or it is in normal
form after the first and stays so. -/
lemma trans (h : Settles s s') (h' : Settles s' s'') : Settles s s'' := by
  refine ⟨h'.size.trans h.size, fun i => ?_⟩
  rcases h.slot i with heq | ⟨f, heq⟩
  · rw [← heq]
    exact h'.slot i
  · refine Or.inr ⟨f, ?_⟩
    rcases h'.slot i with heq' | ⟨f', heq'⟩
    · rw [heq', heq]
    · rw [heq', heq, Option.map_map]
      congr 1
      funext r
      exact (Regex.normal_normalize f r).normalize_eq f'

/-- The slots settle while one of them is in use. -/
lemma take (h : Settles s s') (i : Nat) :
    Settles (s.setIfInBounds i none) (s'.setIfInBounds i none) := by
  refine ⟨by simpa using h.size, fun j => ?_⟩
  rw [getD_setIfInBounds_eq, getD_setIfInBounds_eq, h.size]
  split_ifs
  · exact Or.inl rfl
  · exact h.slot j

/-- An expression has been taken out of its slot; it comes back in normal form. -/
lemma put (h : Settles (s.setIfInBounds i none) s') {r : Regex} (hi : s.getD i none = some r)
    (ignoreCase : Bool) :
    Settles s (s'.setIfInBounds i (some (r.normalize ignoreCase false))) := by
  have hsize : s'.size = s.size := by simpa using h.size
  refine ⟨by simpa using hsize, fun j => ?_⟩
  have hj := h.slot j
  rw [getD_setIfInBounds_eq] at hj ⊢
  rw [hsize]
  split_ifs at hj ⊢ with hji
  · rw [hji.1, hi]
    exact Or.inr ⟨ignoreCase, rfl⟩
  · exact hj

/-- An empty slot stays empty. -/
lemma eq_none (h : Settles s s') (hi : s.getD i none = none) : s'.getD i none = none := by
  rcases h.slot i with heq | ⟨f, heq⟩
  · rw [heq, hi]
  · rw [heq, hi, Option.map_none]

/-- What is in normal form stays in its slot. -/
lemma eq_of_normal (h : Settles s s') {r : Regex} (hr : r.Normal)
    (hi : s.getD i none = some r) : s'.getD i none = some r := by
  rcases h.slot i with heq | ⟨f, heq⟩
  · rw [heq, hi]
  · rw [heq, hi, Option.map_some, hr.normalize_eq]

/-- The same slots are full. -/
lemma isSome_eq (h : Settles s s') (i : Nat) :
    (s'.getD i none).isSome = (s.getD i none).isSome := by
  rcases h.slot i with heq | ⟨f, heq⟩
  · rw [heq]
  · rw [heq, Option.isSome_map]

end Settles

/-! ## The same diagnostics -/

/-- **The same diagnostics have been added** on the way from `c` to `d` and from `c'` to `d'`. -/
def AddedSame (c d c' d' : Construction) : Prop :=
  ∃ ds, d.diagnostics.entries = c.diagnostics.entries ++ ds ∧
    d'.diagnostics.entries = c'.diagnostics.entries ++ ds

namespace AddedSame

variable {c d e c' d' e' : Construction}

/-- No diagnostics have been added. -/
lemma of_eq (h : d.diagnostics = c.diagnostics) (h' : d'.diagnostics = c'.diagnostics) :
    AddedSame c d c' d' :=
  ⟨#[], by rw [h, Array.append_empty], by rw [h', Array.append_empty]⟩

/-- What is added after the same additions is the same. -/
lemma trans (h : AddedSame c d c' d') (h' : AddedSame d e d' e') : AddedSame c e c' e' := by
  obtain ⟨ds, hd, hd'⟩ := h
  obtain ⟨es, he, he'⟩ := h'
  exact ⟨ds ++ es, by rw [he, hd, Array.append_assoc], by rw [he', hd', Array.append_assoc]⟩

/-- The same number of errors is added. -/
lemma errors (h : AddedSame c d c' d') : d'.errors + c.errors = d.errors + c'.errors := by
  obtain ⟨ds, hd, hd'⟩ := h
  simp only [Construction.errors, Diagnostics.errorCount, hd, hd', Array.countP_append]
  omega

end AddedSame

/-! ## Steps that can be repeated -/

/-- **A step that can be repeated.** It lets the slots settle. From the same automaton, with what
has become of the slots since, it does the same, adds the same diagnostics and leaves the slots
alone. -/
structure Replays {α : Type} (x : Build α) : Prop where
  settles : ∀ c, Settles c.slots (x c).2.slots
  again : ∀ c c' : Construction, c'.automaton = c.automaton → Settles (x c).2.slots c'.slots →
    (x c').1 = (x c).1 ∧ (x c').2.automaton = (x c).2.automaton ∧ (x c').2.slots = c'.slots ∧
      AddedSame c (x c).2 c' (x c').2

namespace Replays

variable {α β : Type} {x : Build α} {f : α → Build β}

/-- A mere result can be repeated. -/
lemma pure (a : α) : Replays (Pure.pure a : Build α) :=
  ⟨fun c => Settles.refl c.slots, fun _ _ h _ => ⟨rfl, h, rfl, AddedSame.of_eq rfl rfl⟩⟩

/-- **One step after another.** What has become of the slots after both steps, has become of them
after the first one. -/
lemma bind (hx : Replays x) (hf : ∀ c, Replays (f (x c).1)) : Replays (x >>= f) where
  settles c := (hx.settles c).trans ((hf c).settles _)
  again c c' hauto hslots := by
    have hlater := (hf c).settles (x c).2
    obtain ⟨hvalue, hauto₁, hslots₁, hsame₁⟩ := hx.again c c' hauto (hlater.trans hslots)
    obtain ⟨hvalue₂, hauto₂, hslots₂, hsame₂⟩ := (hf c).again (x c).2 (x c').2 hauto₁
      (by rw [hslots₁]; exact hslots)
    show (f (x c').1 (x c').2).1 = (f (x c).1 (x c).2).1 ∧ _
    have hstep : (x >>= f) c' = f (x c).1 (x c').2 := by rw [← hvalue]; rfl
    rw [hstep, hvalue]
    exact ⟨hvalue₂, hauto₂, hslots₂.trans hslots₁, hsame₁.trans hsame₂⟩

/-- A step that changes the automaton only. -/
lemma grow (change : Automaton → α × Automaton) : Replays (fun c : Construction =>
    let (a, automaton) := change c.automaton
    (a, { c with automaton })) where
  settles c := Settles.refl c.slots
  again c c' h _ := by
    show (change c'.automaton).1 = _ ∧ (change c'.automaton).2 = _ ∧ _
    rw [h]
    exact ⟨rfl, rfl, rfl, AddedSame.of_eq rfl rfl⟩

/-- A report can be repeated. -/
lemma report (m : BuildMode) (fault : RegexFault) : Replays (report m fault) where
  settles c := Settles.refl c.slots
  again _ _ h _ := ⟨rfl, h, rfl, #[⟨.semanticError, m.position, fault.message⟩],
    Array.push_eq_append, Array.push_eq_append⟩

/-- A character list can be built again. -/
lemma oneOf (m : BuildMode) (l : CharList) : Replays (oneOf m l) := by
  rw [Build.oneOf]
  split_ifs
  · exact (report m .emptyCharList).bind fun _ => (grow Automaton.newFragment).bind fun _ =>
      (grow fun a => ((), a.addEpsilon _ _)).bind fun _ => pure _
  · exact (grow Automaton.newFragment).bind fun _ =>
      (grow fun a => ((), a.modify _ _)).bind fun _ => pure _

end Replays

/-! ## Building fragments again -/

/-- **Steps put together can be repeated** if each one can.

**Proof sketch.** One case per building step. Each step does the same whatever the slots are, and
following steps depend on its result only. -/
lemma keptByBuilding_replays (m : BuildMode) : KeptByBuilding
    (fun _ P x y => y = x ∧ Replays x ∧ ∀ c, P (x c).1) (fun _ => True) Eq m m where
  pure hP := ⟨rfl, Replays.pure _, fun _ => hP⟩
  bind := by
    intro α β P Q x y f g hx hf
    obtain ⟨rfl, hx, hP⟩ := hx
    have hf := fun c => hf (y c).1 (hP c)
    refine ⟨funext fun c => ?_, hx.bind fun c => (hf c).2.1, fun c => (hf c).2.2 (y c).2⟩
    show g (y c).1 (y c).2 = f (y c).1 (y c).2
    rw [(hf c).1]
  newState := ⟨rfl, Replays.grow Automaton.newState, fun _ => trivial⟩
  newFragment := ⟨rfl, Replays.grow Automaton.newFragment, fun _ => ⟨trivial, trivial⟩⟩
  epsilon i j _ := ⟨rfl, Replays.grow fun a => ((), a.addEpsilon i j), fun _ => trivial⟩
  link i c j _ := ⟨rfl, Replays.grow fun a => ((), a.modify i _), fun _ => trivial⟩
  report fault := ⟨rfl, Replays.report m fault, fun _ => trivial⟩
  oneOf := by
    intro l l' hl
    subst hl
    exact ⟨rfl, Replays.oneOf m l, fun _ => ⟨trivial, trivial⟩⟩
  single _ := rfl

/-- The fragment of a normalized expression can be built again, if those of its references can. -/
lemma replays_buildWith {m : BuildMode} {named : String → Option Nat → Build Fragment}
    (hnamed : ∀ label target, Replays (named label target)) (r : Regex) :
    Replays (buildWith m named r) :=
  ((keptByBuilding_replays m).buildWith (Regex.Alike.refl (fun _ => rfl) r) fun x _ =>
    ⟨rfl, hnamed x.1 x.2, fun _ => ⟨trivial, trivial⟩⟩).2.1

/-- **The fragment of a reference can be built again.** The second time its slot holds the normal
form that was put back the first time.

**Proof sketch.** Without a target there is nothing to be built again. A slot that is empty when the
reference is met is empty later, so that the error is reported again. Otherwise the slot holds the
normal form, from which the same is built, and the same normal form is put back. -/
lemma replays_buildNamed {m : BuildMode} {inner : Regex → Build Fragment}
    (hinner : ∀ r, Replays (inner r))
    (hnormal : ∀ r, inner (r.normalize m.ignoreCase false) = inner r) (label : String)
    (target : Option Nat) : Replays (buildNamed m inner label target) := by
  have hR := keptByBuilding_replays m
  cases target with
  | none => exact hR.emptyText.2.1
  | some i =>
    have hfaulty := (hR.faulty (.circular label)).2.1
    refine ⟨fun c => ?_, fun c c' hauto hslots => ?_⟩
    · cases hc : c.slots.getD i none with
      | none =>
        rw [buildNamed_of_none hc]
        exact hfaulty.settles c
      | some r =>
        rw [buildNamed_of_some hc]
        exact ((hinner r).settles { c with slots := c.slots.setIfInBounds i none }).put hc _
    · cases hc : c.slots.getD i none with
      | none =>
        rw [buildNamed_of_none hc] at hslots ⊢
        rw [buildNamed_of_none (((hfaulty.settles c).trans hslots).eq_none hc)]
        exact hfaulty.again c c' hauto hslots
      | some r =>
        rw [buildNamed_of_some hc] at hslots ⊢
        set taken : Construction := { c with slots := c.slots.setIfInBounds i none } with htaken
        have hslots : Settles ((inner r taken).2.slots.setIfInBounds i
          (some (r.normalize m.ignoreCase false))) c'.slots := hslots
        have hsettles := (hinner r).settles taken
        have hi : i < c.slots.size := lt_size_of_slot hc
        have hsize : (inner r taken).2.slots.size = c.slots.size :=
          hsettles.size.trans Array.size_setIfInBounds
        have hempty : (inner r taken).2.slots.getD i none = none :=
          hsettles.eq_none (by rw [getD_setIfInBounds_eq, if_pos ⟨rfl, hi⟩])
        have hc' : c'.slots.getD i none = some (r.normalize m.ignoreCase false) :=
          hslots.eq_of_normal (Regex.normal_normalize _ r)
            (by rw [getD_setIfInBounds_eq, if_pos ⟨rfl, by omega⟩])
        have hrest : Settles (inner r taken).2.slots (c'.slots.setIfInBounds i none) := by
          have h := hslots.take i
          rwa [setIfInBounds_restore hempty] at h
        rw [buildNamed_of_some hc', hnormal]
        obtain ⟨hvalue, hauto', hslots', hsame⟩ := (hinner r).again taken
          { c' with slots := c'.slots.setIfInBounds i none } hauto hrest
        refine ⟨hvalue, hauto', ?_, hsame⟩
        show (inner r { c' with slots := _ }).2.slots.setIfInBounds i _ = c'.slots
        rw [hslots', (Regex.normal_normalize _ r).normalize_eq]
        exact setIfInBounds_restore hc' none

/-- An automaton is built from what is left of an expression as from the expression itself. -/
lemma build_normalize (m : BuildMode) (depth : Nat) (r : Regex) :
    build m depth (r.normalize m.ignoreCase false) = build m depth r := by
  cases depth with
  | zero => rw [build, build, Regex.normalize_normalize_true]
  | succ depth => rw [build, build, Regex.normalize_normalize_true]

/-- **The fragment of an expression can be built again.** -/
lemma replays_build (m : BuildMode) : ∀ (depth : Nat) (r : Regex), Replays (build m depth r)
  | 0, r => by
    have hR := keptByBuilding_replays m
    rw [build]
    refine replays_buildWith (fun label target => ?_) _
    split_ifs
    · exact (hR.faulty (.circular label)).2.1
    · exact hR.emptyText.2.1
  | depth + 1, r => by
    rw [build]
    exact replays_buildWith (replays_buildNamed (replays_build m depth) (build_normalize m depth)) _

/-! ## Building lexical states again -/

namespace TokenFragments

/-- The same fragments; the slots and the diagnostics may be others. -/
structure Same (t t' : TokenFragments) : Prop where
  automaton : t'.construction.automaton = t.construction.automaton
  starts : t'.starts = t.starts
  actions : t'.actions = t.actions

/-- **Fragments `t` have become `u`, and would again.** The slots have settled. The same fragments,
with what has become of the slots since, become the same; as many errors are reported, and the
slots are left alone. -/
structure Repeats {ε : Type} (f : TokenFragments → Except ε TokenFragments)
    (t u : TokenFragments) : Prop where
  settles : Settles t.construction.slots u.construction.slots
  again : ∀ {t' : TokenFragments}, t.Same t' →
    Settles u.construction.slots t'.construction.slots → ∃ u', f t' = .ok u' ∧ u.Same u' ∧
      u'.construction.slots = t'.construction.slots ∧
      u'.construction.errors + t.construction.errors =
        u.construction.errors + t'.construction.errors

variable {options : Options} {t u : TokenFragments}

/-- **The fragment of a token can be built again.**

**Proof sketch.** The slot of the token holds its expression or, later, the normal form of it; the
number of references that may be followed is the same. The fragment is built again, and its last state
gets the same kind. -/
lemma repeats_add {ordinal : Nat} {d : TokenDef} (h : t.add options 0 ordinal d = .ok u) :
    Repeats (fun t => t.add options 0 ordinal d) t u := by
  cases hr : t.construction.slots.getD d.regex none with
  | none =>
    rw [add_of_none hr] at h
    cases h
  | some r =>
    rw [add_of_some hr] at h
    have hstep : Replays (fragmentStep options d (t.depthFor d)) :=
      replays_buildNamed (replays_build _ _) (build_normalize _ _) _ _
    obtain rfl := Except.ok.inj h
    refine ⟨hstep.settles t.construction, fun {t'} hsame hslots => ?_⟩
    have hlater := (hstep.settles t.construction).trans hslots
    have hdepth : t'.depthFor d = t.depthFor d :=
      Construction.fullSlots_congr (hlater.take d.regex).size (hlater.take d.regex).isSome_eq
    obtain ⟨r', hr'⟩ : ∃ r', t'.construction.slots.getD d.regex none = some r' := by
      rw [← Option.isSome_iff_exists, hlater.isSome_eq, hr]
      rfl
    obtain ⟨hvalue, hauto, hslots', hadded⟩ :=
      hstep.again t.construction t'.construction hsame.automaton hslots
    refine ⟨_, add_of_some hr', ⟨?_, ?_, ?_⟩, ?_, ?_⟩
    · rw [attach, attach, hdepth, hvalue, hauto]
    · rw [attach, attach, hdepth, hvalue, hsame.starts]
    · rw [attach, attach, hsame.actions]
    · rw [hdepth]
      exact hslots'
    · rw [hdepth]
      exact hadded.errors

/-- **The fragments of several tokens can be built again.**

**Proof sketch.** Induction on the tokens: the first one can be built again with the slots as the others
have left them. -/
lemma repeats_addAll : ∀ (tokens : List (Nat × TokenDef)) {t u : TokenFragments},
    t.addAll options 0 tokens = .ok u → Repeats (fun t => t.addAll options 0 tokens) t u
  | [], t, u, h => by
    obtain rfl := Except.ok.inj h
    exact ⟨Settles.refl _, fun {t'} hsame _ => ⟨t', rfl, hsame, rfl, Nat.add_comm _ _⟩⟩
  | (ordinal, d) :: tokens, t, u, h => by
    rw [addAll] at h
    cases hadd : t.add options 0 ordinal d with
    | error c =>
      rw [hadd] at h
      cases h
    | ok t₁ =>
      rw [hadd] at h
      have hone := repeats_add hadd
      have hrest := repeats_addAll tokens h
      refine ⟨hone.settles.trans hrest.settles, fun {t'} hsame hslots => ?_⟩
      obtain ⟨u₁, hu₁, hsame₁, hslots₁, herr₁⟩ := hone.again hsame (hrest.settles.trans hslots)
      obtain ⟨u', hu', hsame', hslots', herr'⟩ := hrest.again hsame₁ (by rwa [hslots₁])
      refine ⟨u', ?_, hsame', hslots'.trans hslots₁, by omega⟩
      show t'.addAll options 0 ((ordinal, d) :: tokens) = .ok u'
      rw [addAll, hu₁]
      exact hu'

end TokenFragments

namespace Lexer

/-- What a lexical state is made of does not depend on slots and diagnostics. -/
lemma finishState_congr {t t' : TokenFragments} (h : t.Same t') (g : Grammar)
    (slots : Array (Option Regex)) (options : Options) (mode initial : Nat) :
    finishState { g with regexes := slots } options mode initial t' =
      finishState g options mode initial t := by
  rw [finishState, finishState, h.automaton, h.starts, h.actions]

/-- **A step of building a scanner that can be repeated**: `f`, run on the grammar `g`, has given
`a` and left `g'`. It changes the slots of the grammar only, and they have settled. With what has
become of the slots since, it gives the same, reports as many errors and leaves the grammar
alone. -/
structure Repeats {α : Type} (f : Grammar → Context → Built α) (g : Grammar) (ctx : Context) (a : α)
    (g' : Grammar) (ctx' : Context) : Prop where
  grammar : g' = { g with regexes := g'.regexes }
  options : ctx'.options = ctx.options
  settles : Settles g.regexes g'.regexes
  again : ∀ {slots : Array (Option Regex)} {now : Context}, Settles g'.regexes slots →
    now.options = ctx.options → ∃ now',
      f { g with regexes := slots } now = (.ok a, { g with regexes := slots }, now') ∧
      now'.options = ctx.options ∧
      now'.diagnostics.errorCount + ctx.diagnostics.errorCount =
        ctx'.diagnostics.errorCount + now.diagnostics.errorCount

/-- **A lexical state can be built again.**

**Proof sketch.** The fragments of the active tokens can be built again from any settled slots. The
automaton is the same, so that it is closed and numbered in the same way, and the same warnings are
added. -/
lemma repeats_buildState {g g' : Grammar} {ctx ctx' : Context} {mode : Nat} {s : LexicalState}
    (h : buildState g ctx mode = (.ok s, g', ctx')) :
    Repeats (fun g ctx => buildState g ctx mode) g ctx s g' ctx' := by
  obtain ⟨t, hadd, hfin, rfl, rfl⟩ := buildState_eq_ok h
  have hrep := TokenFragments.repeats_addAll _ hadd
  refine ⟨rfl, rfl, hrep.settles, fun {slots now} hslots hoptions => ?_⟩
  have hstart : (TokenFragments.start g.regexes ctx.diagnostics).Same
    (TokenFragments.start slots now.diagnostics) := ⟨rfl, rfl, rfl⟩
  obtain ⟨u, hu, hsame, hslots', herr⟩ := hrep.again hstart hslots
  refine ⟨⟨now.options, warnEmptyMatch g s.name u.construction.diagnostics s.emptyMatch⟩, ?_,
    hoptions, ?_⟩
  · have hadd' : (TokenFragments.start slots now.diagnostics).addAll now.options 0
        (activeTokens { g with regexes := slots } mode) = .ok u := by
      rw [hoptions]
      exact hu
    have hfin' : finishState { g with regexes := slots } now.options mode 0 u = .ok s := by
      rw [finishState_congr hsame, hoptions, hfin]
    have hnew : ({} : Automaton).newState = (0, ({} : Automaton).newState.2) := rfl
    show buildState { g with regexes := slots } now mode = _
    rw [buildState, hnew]
    dsimp only
    rw [← TokenFragments.start, hadd']
    dsimp only
    rw [hfin', hslots']
    rfl
  · show (warnEmptyMatch _ _ _ _).errorCount + _ = (warnEmptyMatch _ _ _ _).errorCount + _
    rw [errorCount_warnEmptyMatch, errorCount_warnEmptyMatch]
    exact herr

/-- **Lexical states can be built again.**

**Proof sketch.** Induction on the lexical states. What has become of the slots after all of them,
has become of them after the first one. -/
lemma repeats_buildStates : ∀ (modes : List Nat) {g g' : Grammar} {ctx ctx' : Context}
    {states : List LexicalState}, buildStates g ctx modes = (.ok states, g', ctx') →
    Repeats (fun g ctx => buildStates g ctx modes) g ctx states g' ctx'
  | [], g, g', ctx, ctx', states, h => by
    cases h
    refine ⟨rfl, rfl, Settles.refl _, fun {slots now} _ hoptions => ⟨now, rfl, hoptions, ?_⟩⟩
    exact Nat.add_comm _ _
  | mode :: modes, g, g', ctx, ctx', states, h => by
    obtain ⟨s, ss, g₁, ctx₁, hone, hrest, rfl⟩ := buildStates_cons_eq_ok h
    have hone := repeats_buildState hone
    have hrest := repeats_buildStates modes hrest
    have hgrammar : g' = { g with regexes := g'.regexes } := by
      rw [hrest.grammar, hone.grammar]
    refine ⟨hgrammar, hrest.options.trans hone.options, hone.settles.trans hrest.settles,
      fun {slots now} hslots hoptions => ?_⟩
    obtain ⟨now₁, hnow₁, hopt₁, herr₁⟩ := hone.again (hrest.settles.trans hslots) hoptions
    obtain ⟨now₂, hnow₂, hopt₂, herr₂⟩ := hrest.again hslots (hopt₁.trans hone.options.symm)
    have hg₁ : ({ g₁ with regexes := slots } : Grammar) = { g with regexes := slots } := by
      rw [hone.grammar]
    rw [hg₁] at hnow₂
    refine ⟨now₂, ?_, hopt₂.trans hone.options, by omega⟩
    show buildStates { g with regexes := slots } now (mode :: modes) = _
    rw [buildStates, hnow₁]
    dsimp only
    rw [hnow₂]

/-- **A scanner can be built again.**

**Proof sketch.** All lexical states can be built again with the slots that were left, and the kinds of
the tokens do not depend on the slots. -/
lemma repeats_build {g g' : Grammar} {ctx ctx' : Context} {lexer : Lexer}
    (h : build g ctx = (.ok lexer, g', ctx')) : Repeats build g ctx lexer g' ctx' := by
  rw [build] at h
  rcases hstates : buildStates g ctx (List.range g.lexicalStates.size) with ⟨_ | states, g₁, ctx₁⟩
  · rw [hstates] at h
    cases h
  · rw [hstates] at h
    cases h
    have hrep := repeats_buildStates _ hstates
    refine ⟨hrep.grammar, hrep.options, hrep.settles, fun {slots now} hslots hoptions => ?_⟩
    obtain ⟨now', hnow', hopt, herr⟩ := hrep.again hslots hoptions
    refine ⟨now', ?_, hopt, herr⟩
    have hkinds : kindInfos g' = kindInfos { g with regexes := slots } := by
      rw [hrep.grammar]
      rfl
    rw [build, hnow']
    dsimp only
    rw [hkinds]

/-- **Building a scanner again.** From the grammar that building its scanner has left, the same
scanner is built; as many errors are reported, and the grammar is left alone. -/
theorem build_again {g g' : Grammar} {ctx ctx' : Context} {lexer : Lexer}
    (h : build g ctx = (.ok lexer, g', ctx')) (now : Context)
    (hoptions : now.options = ctx.options) :
    ∃ now', build g' now = (.ok lexer, g', now') ∧
      now'.diagnostics.errorCount + ctx.diagnostics.errorCount =
        ctx'.diagnostics.errorCount + now.diagnostics.errorCount := by
  have hrep := repeats_build h
  obtain ⟨now', hnow', -, herr⟩ := hrep.again (Settles.refl _) hoptions
  rw [← hrep.grammar] at hnow'
  exact ⟨now', hnow', herr⟩

end Lexer

end GrammarForge
