import GrammarForge.Proofs.BuildSteps

set_option autoImplicit false

/-!
# Expressions that tokens share

The expressions in the slots of a grammar are shared by all tokens that refer to them, and are
brought to normal form by the token that is built first. Here the constructions of two grammars are
run side by side that differ in whether one token ignores letter case. The slots that another token
uses stay the same as long as what is left of the shared expressions does not depend on letter case.

## Main definitions

* `Regex.CaseNeutral` — what is left of an expression does not depend on letter case.
* `PairedSlots`, `Paired` — the slots of the two runs, and the two runs.
* `Together` — two steps that keep two runs together.

## Main results

* `keptByBuilding_together` — the steps of a construction keep two runs together.
* `together_build` — so does building the fragment of an expression.
* `Paired.reads_iff` — where the states of two runs agree, the same texts are read.
-/

namespace GrammarForge

open Build Automaton

/-! ## Slots of two runs -/

/-- What is left of an expression does not depend on whether letter case was ignored in it. -/
def Regex.CaseNeutral (r : Regex) : Prop := r.normalize true false = r.normalize false false

/-- An expression refers to a slot. -/
def Regex.RefersTo (r : Regex) (i : Nat) : Prop := ∃ label, (label, some i) ∈ r.references

/-- A case-neutral expression has the same normal form in both modes. -/
lemma Regex.CaseNeutral.normalize_eq {r : Regex} (h : r.CaseNeutral) :
    ∀ ignoreCase ignoreCase', r.normalize ignoreCase false = r.normalize ignoreCase' false
  | true, true | false, false => rfl
  | true, false => h
  | false, true => h.symm

/-- **What stands in a slot** when `own` are the slots that one token uses, and `other` those that
another token uses: references do not lead out of either, and an expression that both use is neutral
to letter case. -/
structure Kept (own other : Nat → Prop) (i : Nat) (r : Regex) : Prop where
  inOwn : own i → ∀ j, r.RefersTo j → own j
  inOther : other i → ∀ j, r.RefersTo j → other j
  neutral : own i → other i → r.CaseNeutral

/-- A kept expression is still kept in normal form. -/
lemma Kept.normalize {own other : Nat → Prop} {i : Nat} {r : Regex} (h : Kept own other i r)
    (ignoreCase : Bool) : Kept own other i (r.normalize ignoreCase false) where
  inOwn hi j := fun ⟨label, hj⟩ => h.inOwn hi j ⟨label, Regex.references_normalize false hj⟩
  inOther hi j := fun ⟨label, hj⟩ => h.inOther hi j ⟨label, Regex.references_normalize false hj⟩
  neutral _ _ := by
    have hnormal := Regex.normal_normalize ignoreCase r
    rw [Regex.CaseNeutral, hnormal.normalize_eq, hnormal.normalize_eq]

/-- **The slots of two runs.** Expressions in the same slot have the same shape, and those in `own`
are the same. -/
structure PairedSlots (own other : Nat → Prop) (s s' : Array (Option Regex)) : Prop where
  size : s'.size = s.size
  shape : ∀ i, Option.Rel Regex.SameShape (s.getD i none) (s'.getD i none)
  same : ∀ i, own i → s'.getD i none = s.getD i none
  kept : ∀ {i r}, s.getD i none = some r → Kept own other i r

namespace PairedSlots

variable {own other : Nat → Prop} {s s' : Array (Option Regex)} {i : Nat}

/-- Two slots are written.

**Proof sketch.** The written slots have the conditions as hypotheses, and all others are as before. -/
lemma set (h : PairedSlots own other s s') {x x' : Option Regex}
    (hshape : Option.Rel Regex.SameShape x x') (hsame : own i → x' = x)
    (hkept : ∀ r, x = some r → Kept own other i r) :
    PairedSlots own other (s.setIfInBounds i x) (s'.setIfInBounds i x') := by
  refine ⟨by simpa using h.size, fun j => ?_, fun j hj => ?_, fun {j r} hr => ?_⟩
  · rw [getD_setIfInBounds_eq, getD_setIfInBounds_eq, h.size]
    split_ifs
    · exact hshape
    · exact h.shape j
  · rw [getD_setIfInBounds_eq, getD_setIfInBounds_eq, h.size]
    split_ifs with hji
    · exact hsame (hji.1 ▸ hj)
    · exact h.same j hj
  · rcases slot_of_setIfInBounds hr with ⟨rfl, hx⟩ | hr
    · exact hkept r hx
    · exact h.kept hr

/-- A slot is emptied in both runs. -/
lemma take (h : PairedSlots own other s s') (i : Nat) :
    PairedSlots own other (s.setIfInBounds i none) (s'.setIfInBounds i none) :=
  h.set .none (fun _ => rfl) fun _ hnone => by cases hnone

/-- The same slots are full in both runs. -/
lemma isSome_eq (h : PairedSlots own other s s') (i : Nat) :
    (s'.getD i none).isSome = (s.getD i none).isSome := by
  have hshape := h.shape i
  generalize s.getD i none = x, s'.getD i none = x' at hshape ⊢
  cases hshape <;> rfl

end PairedSlots

/-! ## Two runs -/

/-- From place `n` on, moves lead to such places only. -/
def Automaton.Inside (n : Nat) (a : Automaton) : Prop :=
  ∀ i, n ≤ i → (∀ j, a.Silent i j → n ≤ j) ∧ ∀ j, (a.state i).next = some j → n ≤ j

/-- **Two runs side by side.** The automata have the same size; if the runs are to be `exact`, their
states agree from place `n` on. -/
structure Paired (exact : Prop) (n : Nat) (own other : Nat → Prop) (c c' : Construction) :
    Prop where
  size : c'.automaton.size = c.automaton.size
  le : n ≤ c.automaton.size
  state : exact → ∀ i, n ≤ i → c'.automaton.state i = c.automaton.state i
  inside : c.automaton.Inside n
  slots : PairedSlots own other c.slots c'.slots

namespace Paired

variable {exact : Prop} {n : Nat} {own other : Nat → Prop} {c c' : Construction}

/-- An empty state is added to both automata. -/
lemma push (h : Paired exact n own other c c') : Paired exact n own other
    { c with automaton := c.automaton.push {} } { c' with automaton := c'.automaton.push {} } where
  size := by simp [h.size]
  le := by simp [h.le.trans (Nat.le_succ _)]
  state hexact i hi := by rw [state_push_empty, state_push_empty, h.state hexact i hi]
  inside i hi := by
    simp only [Silent, state_push_empty]
    exact h.inside i hi
  slots := h.slots

/-- A state is changed in both automata; its moves lead to places from `n` on.

**Proof sketch.** The changed state is in both or beyond both; moves that are new lead to places from
`n` on. -/
lemma modify (h : Paired exact n own other c c') (i : Nat) {change change' : State → State}
    (hchange : exact → change' = change)
    (hepsilon : ∀ s j, j ∈ (change s).epsilon → j ∈ s.epsilon ∨ n ≤ j)
    (hnext : ∀ s j, (change s).next = some j → s.next = some j ∨ n ≤ j) :
    Paired exact n own other { c with automaton := c.automaton.modify i change }
      { c' with automaton := c'.automaton.modify i change' } := by
  have hstate : ∀ (a : Automaton) (f : State → State) (x : Nat), (a.modify i f).state x =
      if x = i ∧ i < a.size then f (a.state x) else a.state x :=
    fun a f x => getD_modify a.states i x f
  refine ⟨by simp [h.size], by simpa using h.le, fun hexact x hx => ?_, fun x hx => ?_, h.slots⟩
  · show (c'.automaton.modify i change').state x = (c.automaton.modify i change).state x
    rw [hstate, hstate, h.state hexact x hx, hchange hexact, h.size]
  · obtain ⟨hsilent, hto⟩ := h.inside x hx
    simp only [Silent, hstate]
    split_ifs
    · exact ⟨fun j hj => (hepsilon _ j hj).elim (hsilent j) id,
        fun j hj => (hnext _ j hj).elim (hto j) id⟩
    · exact ⟨hsilent, hto⟩

/-- Diagnostics are reported in either run. -/
lemma report (h : Paired exact n own other c c') (ds ds' : Diagnostics) :
    Paired exact n own other { c with diagnostics := ds } { c' with diagnostics := ds' } :=
  ⟨h.size, h.le, h.state, h.inside, h.slots⟩

end Paired

/-- Adding an epsilon move. -/
lemma mem_addEpsilon {s : State} {i j : Nat} :
    i ∈ (s.addEpsilon j).epsilon ↔ i = j ∨ i ∈ s.epsilon := by
  rw [State.addEpsilon, mem_insertSorted]

/-- How one character of a list is read: the two states of a fragment are added, and the first one
is changed. -/
def oneOfChange (l : CharList) (last : Nat) (s : State) : State :=
  if l.isEmpty then s.addEpsilon last
  else { s with moves := l.items.foldl addItem s.moves, next := some last }

/-- Building a character list adds one fragment, changes its first state, and leaves the slots alone. -/
lemma oneOf_eq (m : BuildMode) (l : CharList) (c : Construction) : ∃ ds,
    oneOf m l c = (c.automaton.newFragment.1, { c with
      automaton := c.automaton.newFragment.2.modify c.automaton.size
        (oneOfChange l (c.automaton.size + 1))
      diagnostics := ds }) := by
  unfold oneOf oneOfChange
  split_ifs
  · exact ⟨_, rfl⟩
  · exact ⟨_, rfl⟩

section

variable {exact : Prop} {n : Nat} {own other : Nat → Prop} {m m' : BuildMode}

/-- **Two steps keep two runs together**: they give the same result, which has the property `P`. -/
def Together (exact : Prop) (n : Nat) (own other : Nat → Prop) (α : Type) (P : α → Prop)
    (x y : Build α) : Prop :=
  ∀ c c', Paired exact n own other c c' →
    (y c').1 = (x c).1 ∧ P (x c).1 ∧ Paired exact n own other (x c).2 (y c').2

/-- **The steps of a construction keep two runs together.** They agree exactly if the modes and the
character lists do.

**Proof sketch.** One case per building step. Each one does the same in both runs; a character list may
be another one in the second run, but then nothing but the places has to agree. -/
lemma keptByBuilding_together (n : Nat) (own other : Nat → Prop) (hm : exact → m' = m) :
    KeptByBuilding (Together exact n own other) (fun i => n ≤ i) (fun l l' => exact → l' = l)
      m m' where
  pure hP c c' h := ⟨rfl, hP, h⟩
  bind := by
    intro α β P Q x y f g hx hf c c' h
    obtain ⟨hvalue, hP, h₁⟩ := hx c c' h
    have h₂ := hf _ hP (x c).2 (y c').2 h₁
    show (g (y c').1 (y c').2).1 = _ ∧ _ ∧ Paired exact n own other _ (g (y c').1 (y c').2).2
    rw [hvalue]
    exact h₂
  newState c c' h := ⟨h.size, h.le, h.push⟩
  newFragment c c' h := by
    refine ⟨?_, ⟨h.le, h.le.trans (Nat.le_succ _)⟩, h.push.push⟩
    show (⟨_, _⟩ : Fragment) = ⟨_, _⟩
    rw [h.size]
  epsilon i j hj c c' h := by
    refine ⟨rfl, trivial, h.modify i (fun _ => rfl) (fun s k hk => ?_) fun s k hk => Or.inl hk⟩
    rcases mem_addEpsilon.mp hk with rfl | hk
    · exact Or.inr hj
    · exact Or.inl hk
  link i ch j hj c c' h := by
    refine ⟨rfl, trivial, h.modify i (fun hexact => ?_) (fun s k hk => Or.inl hk) fun s k hk => ?_⟩
    · rw [hm hexact]
    · exact Or.inr (Option.some_inj.mp hk ▸ hj)
  report fault c c' h := ⟨rfl, trivial, h.report _ _⟩
  oneOf := by
    intro l l' hl c c' h
    obtain ⟨ds, hds⟩ := oneOf_eq m l c
    obtain ⟨ds', hds'⟩ := oneOf_eq m' l' c'
    have hend : n ≤ c.automaton.size + 1 := h.le.trans (Nat.le_succ _)
    rw [hds, hds', h.size]
    refine ⟨?_, ⟨h.le, hend⟩, ?_⟩
    · show (⟨_, _⟩ : Fragment) = ⟨_, _⟩
      rw [h.size]
    · refine (h.push.push.modify c.automaton.size (fun hexact => by rw [hl hexact])
        (fun s k hk => ?_) fun s k hk => ?_).report ds ds'
      · unfold oneOfChange at hk
        split_ifs at hk
        · rcases mem_addEpsilon.mp hk with rfl | hk
          · exact Or.inr hend
          · exact Or.inl hk
        · exact Or.inl hk
      · unfold oneOfChange at hk
        split_ifs at hk
        · exact Or.inl hk
        · exact Or.inr (Option.some_inj.mp hk ▸ hend)
  single ch hexact := by rw [hm hexact]

/-- An expression can be built in both runs: in the second one it has the same shape. It is the
same, with references to `own` only, if the runs are to be exact; if they differ in whether letter
case is ignored, it refers to `other` only. -/
structure Suits (exact : Prop) (own other : Nat → Prop) (m m' : BuildMode) (r r' : Regex) :
    Prop where
  shape : r.SameShape r'
  same : exact → r' = r ∧ ∀ j, r.RefersTo j → own j
  differs : m'.ignoreCase ≠ m.ignoreCase → ∀ j, r.RefersTo j → other j

/-- Suitable expressions have alike normal forms. -/
lemma Suits.alike {r r' : Regex} (hm : exact → m' = m) (h : Suits exact own other m m' r r') :
    Regex.Alike (fun l l' => exact → l' = l) (r.normalize m.ignoreCase true)
      (r'.normalize m'.ignoreCase true) := by
  by_cases hexact : exact
  · rw [hm hexact, (h.same hexact).1]
    exact Regex.Alike.refl (fun l _ => rfl) _
  · have hany : (fun l l' : CharList => exact → l' = l) = fun _ _ => True := by
      funext l l'
      simp [hexact]
    rw [hany]
    exact h.shape.normalize _ _ _

/-- **The fragment of a reference keeps two runs together**, if the slot is one that may be read.

**Proof sketch.** The slot is full in both runs or empty in both. If it is full, the expressions suit
each other, their fragments are built side by side, and what is put back suits again. -/
lemma together_buildNamed (hm : exact → m' = m) {inner inner' : Regex → Build Fragment}
    (hinner : ∀ {r r'}, Suits exact own other m m' r r' →
      Together exact n own other Fragment (Fragment.Ends fun i => n ≤ i) (inner r) (inner' r'))
    (label : String) {i : Nat} (hown : exact → own i)
    (hother : m'.ignoreCase ≠ m.ignoreCase → other i) :
    Together exact n own other Fragment (Fragment.Ends fun i => n ≤ i)
      (buildNamed m inner label (some i)) (buildNamed m' inner' label (some i)) := by
  intro c c' h
  have hshape := h.slots.shape i
  cases hr : c.slots.getD i none with
  | none =>
    cases hr' : c'.slots.getD i none with
    | some r' =>
      rw [hr, hr'] at hshape
      cases hshape
    | none =>
      rw [buildNamed_of_none hr, buildNamed_of_none hr']
      exact (keptByBuilding_together n own other hm).faulty (.circular label) c c' h
  | some r =>
    cases hr' : c'.slots.getD i none with
    | none =>
      rw [hr, hr'] at hshape
      cases hshape
    | some r' =>
      rw [hr, hr'] at hshape
      obtain hshape : r.SameShape r' := by
        cases hshape
        assumption
      have hkept := h.slots.kept hr
      have hsame : own i → r' = r := by
        intro hi
        have heq := h.slots.same i hi
        rw [hr, hr'] at heq
        exact Option.some_inj.mp heq
      have htaken : Paired exact n own other { c with slots := c.slots.setIfInBounds i none }
          { c' with slots := c'.slots.setIfInBounds i none } :=
        ⟨h.size, h.le, h.state, h.inside, h.slots.take i⟩
      obtain ⟨hvalue, hends, hpaired⟩ := hinner ⟨hshape,
        fun hexact => ⟨hsame (hown hexact), hkept.inOwn (hown hexact)⟩,
        fun hne => hkept.inOther (hother hne)⟩ _ _ htaken
      rw [buildNamed_of_some hr, buildNamed_of_some hr']
      refine ⟨hvalue, hends, hpaired.size, hpaired.le, hpaired.state, hpaired.inside, ?_⟩
      refine hpaired.slots.set (.some (hshape.normalize _ _ _)) (fun hi => ?_) fun x hx => ?_
      · -- in slots of both tokens the flag makes no difference, in the others it is the same
        rw [hsame hi]
        by_cases hflag : m'.ignoreCase = m.ignoreCase
        · rw [hflag]
        · rw [(hkept.neutral hi (hother hflag)).normalize_eq m'.ignoreCase m.ignoreCase]
      · obtain rfl := Option.some_inj.mp hx
        exact hkept.normalize m.ignoreCase

/-- **Building the fragment of an expression keeps two runs together.**

**Proof sketch.** Induction on the depth to which references are followed; a suitable expression
refers to slots that may be read. -/
lemma together_build (hm : exact → m' = m) : ∀ (depth : Nat) {r r' : Regex},
    Suits exact own other m m' r r' → Together exact n own other Fragment
      (Fragment.Ends fun i => n ≤ i) (build m depth r) (build m' depth r')
  | 0, r, r', hr => by
    have hR := keptByBuilding_together n own other hm
    rw [build, build]
    refine hR.buildWith (hr.alike hm) fun x _ => ?_
    split_ifs
    · exact hR.faulty (.circular x.1)
    · exact hR.emptyText
  | depth + 1, r, r', hr => by
    have hR := keptByBuilding_together n own other hm
    rw [build, build]
    refine hR.buildWith (hr.alike hm) fun x hx => ?_
    have href := Regex.references_normalize true hx
    obtain ⟨label, target⟩ := x
    cases target with
    | none => exact hR.emptyText
    | some i =>
      exact together_buildNamed hm (together_build hm depth) label
        (fun hexact => (hr.same hexact).2 i ⟨label, href⟩)
        fun hne => hr.differs hne i ⟨label, href⟩

/-! ## Texts that are read -/

/-- A path that starts from place `n` on stays there, so it is a path wherever these states are. -/
lemma path_congr {a a' : Automaton} (hstate : ∀ i, n ≤ i → a'.state i = a.state i)
    (hinside : a.Inside n) {i k t : Nat} {w : List Char} (h : a.Path t k i w) (hi : n ≤ i) :
    a'.Path t k i w := by
  induction h with
  | here => exact .here
  | silent hstep _ ih =>
    exact .silent ((silent_congr (hstate _ hi) _).mpr hstep) (ih ((hinside _ hi).1 _ hstep))
  | move hstep _ ih =>
    exact .move ((moves_congr (hstate _ hi) _ _).mpr hstep) (ih ((hinside _ hi).2 _ hstep.2))

/-- **Where the states of two runs agree, the same texts are read.** -/
lemma Paired.reads_iff {c c' : Construction} (h : Paired exact n own other c c') (hexact : exact)
    {i t : Nat} {w : List Char} (hi : n ≤ i) :
    c'.automaton.Reads i w t ↔ c.automaton.Reads i w t := by
  have hstate := h.state hexact
  have hinside : c'.automaton.Inside n := by
    intro j hj
    simp only [Silent, hstate j hj]
    exact h.inside j hj
  constructor
  · rintro ⟨k, hk⟩
    exact ⟨k, path_congr (fun j hj => (hstate j hj).symm) hinside hk hi⟩
  · rintro ⟨k, hk⟩
    exact ⟨k, path_congr hstate h.inside hk hi⟩

/-- Two runs of the same size agree in the states that are added from now on, whatever there was
before. -/
lemma Paired.restart {c c' : Construction} (h : Paired exact n own other c c') :
    Paired True c.automaton.size own other c c' where
  size := h.size
  le := le_rfl
  state _ i hi := by rw [state_of_size_le hi, state_of_size_le (h.size.trans_le hi)]
  inside i hi := by
    simp only [Silent, state_of_size_le hi]
    simp
  slots := h.slots

end

end GrammarForge
